import VirtualFileSystem.MirrorRun

/-!
# Closing and reopening

`init_fs` on the bytes of a filesystem whose directory describes its live files rebuilds these
files, with both arrays in order, whatever the order of the arrays that are given up.  The loop
keeps the offset array split: the files of non-zero size in increasing order of their offsets, then
those of size zero at the sentinel offset.
-/

namespace Vfs

open FlatImage

/-- What a file is to the outside, where it lies (if it has any bytes) and its entry. -/
structure FileView where
  name : FileName
  length : ℕ
  index : ℕ
  offset : Option ℕ
  deriving DecidableEq

/-- The view of a record. -/
def FileT.view (f : FileT) : FileView :=
  ⟨f.name, f.length, f.index, if f.length = 0 then none else some f.offset⟩

/-- The directory, the counters and the index array describe exactly the live files, which have
distinct non-empty names and, where they have bytes, disjoint extents. -/
structure Described (w : ℕ) (s : Filesys) : Prop where
  images : s.file ≠ [] ∧ s.dir ≠ [] ∧ s.hash ≠ []
  indexLen : s.indexLen = s.dir.length / metaLen ∧ s.indexLen ≤ maxNumFiles
  nodup : s.live.Nodup
  named : ∀ p ∈ s.live, (s.heap p).name.bytes ≠ []
  distinct : ∀ p ∈ s.live, ∀ q ∈ s.live, (s.heap p).name = (s.heap q).name → p = q
  disjoint : ∀ p ∈ s.live, ∀ q ∈ s.live, p ≠ q → (s.heap p).length ≠ 0 → (s.heap q).length ≠ 0 →
    (s.heap p).offset + (s.heap p).length ≤ (s.heap q).offset ∨
      (s.heap q).offset + (s.heap q).length ≤ (s.heap p).offset
  bound : ∀ p ∈ s.live, (s.heap p).index < s.indexLen
  inj : ∀ p ∈ s.live, ∀ q ∈ s.live, (s.heap p).index = (s.heap q).index → p = q
  decodes : ∀ p ∈ s.live,
    entryName w (entry s.dir (s.heap p).index) = (s.heap p).name.bytes ∧
    entryLength (entry s.dir (s.heap p).index) = (s.heap p).length ∧
    ((s.heap p).length ≠ 0 → entryOffset (entry s.dir (s.heap p).index) = (s.heap p).offset)
  free : ∀ i < s.indexLen, (∀ p ∈ s.live, (s.heap p).index ≠ i) → (entry s.dir i)[0]? = some 0
  index_length : s.index.length = s.indexLen
  slot : ∀ i < s.indexLen, s.index[i]? = some (if ∃ p ∈ s.live, (s.heap p).index = i then 1 else 0)
  count : s.indexCount = s.live.length
  used : s.used = totalLength s.heap s.live

/-- What `init_fs` rebuilt: the same bytes, files and counters, and both arrays in order. -/
structure Reopened (s s' : Filesys) : Prop where
  images : s'.file = s.file ∧ s'.dir = s.dir ∧ s'.hash = s.hash
  files : (s'.live.map fun p => (s'.heap p).view).Perm (s.live.map fun p => (s.heap p).view)
  nList : s'.nList.list.Perm s'.live
  oList : s'.oList.list.Perm s'.live
  names : NameSorted s'.heap s'.nList.list
  offsets : ∃ A B, s'.oList.list = A ++ B ∧
    A.Pairwise (fun p q => (s'.heap p).offset < (s'.heap q).offset) ∧
    (∀ p ∈ A, (s'.heap p).length ≠ 0) ∧
    ∀ p ∈ B, (s'.heap p).length = 0 ∧ (s'.heap p).offset = maxFileDataLen
  oIndex : IdxOk .offset s'.heap s'.oList.list
  nIndex : IdxOk .name s'.heap s'.nList.list
  used : s'.used = s.used
  index : s'.index = s.index
  indexCount : s'.indexCount = s.indexCount

/-! ## The offset array while the directory is read -/

/-- In front of a file of non-zero size there are only such files, at lower offsets. -/
def Ranked (h : Heap) (l : List Ptr) : Prop :=
  l.Pairwise fun p q => (h q).length ≠ 0 → (h p).length ≠ 0 ∧ (h p).offset < (h q).offset

/-- The offset array after some entries. -/
structure OffsetsLoaded (s : Filesys) : Prop where
  perm : s.oList.list.Perm s.live
  ranked : Ranked s.heap s.oList.list
  empty : ∀ p ∈ s.live, (s.heap p).length = 0 → (s.heap p).offset = maxFileDataLen
  stored : ∀ p ∈ s.live, (s.heap p).length ≠ 0 →
    (s.heap p).offset = entryOffset (entry s.dir (s.heap p).index)

section Ranked

variable {h h' : Heap} {l : List Ptr}

theorem Ranked.congr (hr : Ranked h l)
    (hh : ∀ p ∈ l, (h' p).offset = (h p).offset ∧ (h' p).length = (h p).length) :
    Ranked h' l := by
  apply List.Pairwise.imp_of_mem _ hr
  intro p q hp hq hpq
  rw [(hh p hp).1, (hh p hp).2, (hh q hq).1, (hh q hq).2]
  exact hpq

/-- Ranked files come in two runs. -/
theorem Ranked.split (hr : Ranked h l) :
    ∃ A B, l = A ++ B ∧ A.Pairwise (fun p q => (h p).offset < (h q).offset) ∧
      (∀ p ∈ A, (h p).length ≠ 0) ∧ ∀ p ∈ B, (h p).length = 0 := by
  induction l with
  | nil => exact ⟨[], [], rfl, List.Pairwise.nil, by simp, by simp⟩
  | cons p ps ih =>
    obtain ⟨hp, hps⟩ := List.pairwise_cons.mp hr
    by_cases h0 : (h p).length = 0
    · -- behind a file of size zero there are only such files
      refine ⟨[], p :: ps, rfl, List.Pairwise.nil, by simp, ?_⟩
      intro q hq
      rcases List.mem_cons.mp hq with rfl | hq
      · exact h0
      · by_contra hq0
        exact (hp q hq hq0).1 h0
    · obtain ⟨A, B, rfl, hA, hA0, hB⟩ := ih hps
      refine ⟨p :: A, B, rfl, List.pairwise_cons.mpr ⟨?_, hA⟩, ?_, hB⟩
      · intro q hq
        exact (hp q (List.mem_append_left _ hq) (hA0 q hq)).2
      · intro q hq
        rcases List.mem_cons.mp hq with rfl | hq
        · exact h0
        · exact hA0 q hq

theorem Ranked.sorted (hr : Ranked h l) (hlt : ∀ p ∈ l, (h p).offset ≤ maxFileDataLen)
    (he : ∀ p ∈ l, (h p).length = 0 → (h p).offset = maxFileDataLen) : OffsetSorted h l := by
  apply List.Pairwise.imp_of_mem _ hr
  intro p q hp hq hpq
  by_cases h0 : (h q).length = 0
  · rw [he q hq h0]
    exact hlt p hp
  · exact (hpq h0).2.le

end Ranked

section Load

variable {w i n : ℕ} {s s' : Filesys}

theorem OffsetsLoaded.le (hL : OffsetsLoaded s) {p : Ptr} (hp : p ∈ s.live) :
    (s.heap p).offset ≤ maxFileDataLen := by
  by_cases h0 : (s.heap p).length = 0
  · exact (hL.empty p hp h0).le
  · rw [hL.stored p hp h0]
    exact (entryOffset_lt _).le

/-- The position `arr_sorted_insert` finds keeps the array ranked. -/
theorem Registered.ranked {name : FileName} {o length : ℕ}
    (hreg : Registered name o length i s s') (hs : LiveOk s) (hL : OffsetsLoaded s)
    (ho : length ≠ 0 → o < maxFileDataLen)
    (hne : length ≠ 0 → ∀ p ∈ s.oList.list, (s.heap p).length ≠ 0 → (s.heap p).offset ≠ o) :
    ∃ j : ℕ, s'.oList.list = insertAt s.oList.list j s.next ∧
      Ranked s'.heap (insertAt s.oList.list j s.next) := by
  have htype : s.oList.type = .offset := hs.offsets.type_eq
  have hlive : ∀ q ∈ s.oList.list, q ∈ s.live := fun q hq => hL.perm.mem_iff.mp hq
  have hsame : ∀ q ∈ s.oList.list, (s'.heap q).offset = (s.heap q).offset ∧
      (s'.heap q).length = (s.heap q).length := by
    intro q hq
    have := hreg.old q (hs.fresh q (hlive q hq)).ne
    exact ⟨this.2.1, this.2.2.1⟩
  have hnewo : (s'.heap s.next).offset = o := hreg.new.2.1
  have hnewl : (s'.heap s.next).length = length := hreg.new.2.2.1
  have hold : Ranked s'.heap s.oList.list := hL.ranked.congr hsame
  by_cases h0 : length = 0
  · have hget := arrGetIndex_of_empty (f := ⟨name, o, length, i, -1, -1⟩) (h := s.heap) htype h0
    refine ⟨_, hreg.oList hget, pairwise_insertAt hold ?_ ?_⟩
    · intro k q _ _ hq0
      exact absurd (hnewl.trans h0) hq0
    · intro k q hk hq
      rw [List.getElem?_eq_none (by omega)] at hq
      cases hq
  · have hsorted : OffsetSorted s.heap s.oList.list := by
      apply hL.ranked.sorted
      · exact fun p hp => hL.le (hlive p hp)
      · exact fun p hp => hL.empty p (hlive p hp)
    obtain ⟨k, -, hget, h1, h2⟩ := arrGetIndex_offset (f := ⟨name, o, length, i, -1, -1⟩) htype
      hsorted (ho h0) (Nat.pos_of_ne_zero h0) (fun q hq hq0 => hne h0 q hq hq0.ne')
    refine ⟨k, hreg.oList hget, pairwise_insertAt hold ?_ ?_⟩
    · intro m q hm hq _
      have hqm := List.mem_of_getElem? hq
      have hle : (s.heap q).offset ≤ o := h1 m q hm hq
      rw [hnewo, (hsame q hqm).1, (hsame q hqm).2]
      have hq0 : (s.heap q).length ≠ 0 := by
        intro hz
        have := hL.empty q (hlive q hqm) hz
        have := ho h0
        omega
      exact ⟨hq0, lt_of_le_of_ne hle (hne h0 q hqm hq0)⟩
    · intro m q hm hq _
      have hqm := List.mem_of_getElem? hq
      have hlt : o < (s.heap q).offset := h2 m q hm hq
      rw [hnewo, hnewl, (hsame q hqm).1]
      exact ⟨h0, hlt⟩

/-- Reading an entry keeps the offset array in order. -/
theorem LoadStep.offsetsLoaded (h : LoadStep i s s') (hl : Loaded w i s) (hL : OffsetsLoaded s)
    (hd : ExtentsDisjoint n s.dir) (hi : i < n) : OffsetsLoaded s' := by
  cases h with
  | skip hu => exact hL
  | load hu s₁ hreg =>
    have hlive := hreg.live
    have hdir : s₁.dir = s.dir := by rw [hreg.eq]
    have hold : ∀ q ∈ s.live, (s₁.heap q).Same (s.heap q) :=
      fun q hq => hreg.old q (hl.liveOk.fresh q hq).ne
    have ho : ∀ h0 : entryLength (entry s.dir i) ≠ 0,
        loadOffset (entry s.dir i) = entryOffset (entry s.dir i) := fun h0 => if_neg h0
    obtain ⟨j, hlist, hranked⟩ := hreg.ranked hl.liveOk hL
      (fun h0 => by rw [ho h0]; exact entryOffset_lt _)
      (fun h0 p hp hp0 => by
        -- two extents that start at one offset overlap
        have hpl := hL.perm.mem_iff.mp hp
        have hlt := hl.dir.bound p hpl
        have hlen := (hl.dir.entry p hpl).length
        rw [ho h0, hL.stored p hpl hp0]
        intro he
        have := hd _ (hlt.trans hi) i hi hlt.ne (hl.used p hpl) hu (by omega) h0
        omega)
    refine ⟨?_, ?_, ?_, ?_⟩
    · show s₁.oList.list.Perm s₁.live
      rw [hlist, hlive]
      exact (insertAt_perm _ _ _).trans (hL.perm.cons _)
    · show Ranked s₁.heap s₁.oList.list
      rw [hlist]
      exact hranked
    · show ∀ p ∈ s₁.live, (s₁.heap p).length = 0 → (s₁.heap p).offset = maxFileDataLen
      rw [hlive]
      intro p hp
      rcases List.mem_cons.mp hp with rfl | hp
      · rw [hreg.new.2.1, hreg.new.2.2.1]
        exact fun h0 => if_pos h0
      · rw [(hold p hp).2.1, (hold p hp).2.2.1]
        exact hL.empty p hp
    · show ∀ p ∈ s₁.live, (s₁.heap p).length ≠ 0 →
        (s₁.heap p).offset = entryOffset (entry s₁.dir (s₁.heap p).index)
      rw [hlive, hdir]
      intro p hp
      rcases List.mem_cons.mp hp with rfl | hp
      · rw [hreg.new.2.1, hreg.new.2.2.1, hreg.new.2.2.2]
        exact ho
      · rw [(hold p hp).2.1, (hold p hp).2.2.1, (hold p hp).2.2.2]
        exact hL.stored p hp

end Load

/-! ## Reopening -/

section Reopen

variable {w n : ℕ} {s s' : Filesys} {p : Ptr} {i : ℕ}

/-- A name shorter than the field reads the same within 63 bytes. -/
theorem entryName_of_length_lt {e : List UInt8} (hw : nameLen - 1 ≤ w ∧ w ≤ nameLen)
    (hlt : (entryName w e).length < nameLen) : entryName w e = entryName (nameLen - 1) e := by
  obtain rfl | rfl : w = nameLen - 1 ∨ w = nameLen := by omega
  · rfl
  by_cases h0 : (0 : UInt8) ∈ e.take nameLen
  · exact entryName_of_terminated h0
  · -- without a NUL the whole field is the name
    have hall : entryName nameLen e = e.take nameLen := by
      unfold entryName
      rw [List.takeWhile_eq_self_iff]
      intro b hb
      simpa using fun hb0 : b = 0 => h0 (hb0 ▸ hb)
    have htake : e.take nameLen = e.take (nameLen - 1) := by
      rw [hall, List.length_take] at hlt
      rw [List.take_of_length_le (by omega), List.take_of_length_le (by omega)]
    unfold entryName
    rw [htake]

/-- The entry of a live file is in use. -/
theorem Described.used_of_live (hs : Described w s) (hw : nameLen - 1 ≤ w) (hp : p ∈ s.live) :
    Used (entry s.dir (s.heap p).index) := by
  have hname := (hs.decodes p hp).1
  intro h0
  apply hs.named p hp
  rw [← hname]
  cases he : entry s.dir (s.heap p).index with
  | nil => simp [entryName]
  | cons b bs =>
    rw [he] at h0
    obtain rfl : b = 0 := h0
    obtain ⟨k, rfl⟩ : ∃ k, w = k + 1 := ⟨w - 1, by unfold nameLen at hw; omega⟩
    simp [entryName]

/-- An entry in use is the entry of a live file. -/
theorem Described.live_of_used (hs : Described w s) (hi : i < s.indexLen)
    (hu : Used (entry s.dir i)) : ∃ p ∈ s.live, (s.heap p).index = i := by
  by_contra hcon
  have h0 := hs.free i hi fun p hp he => hcon ⟨p, hp, he⟩
  apply hu
  cases he : entry s.dir i with
  | nil => rfl
  | cons b bs =>
    rw [he] at h0
    simpa using h0

theorem Described.dirOk (hs : Described w s) (hw : nameLen - 1 ≤ w ∧ w ≤ nameLen) :
    DirOk w s.indexLen s.dir := by
  have hname : ∀ p ∈ s.live, entryName (nameLen - 1) (entry s.dir (s.heap p).index) =
      (s.heap p).name.bytes := by
    intro p hp
    rw [← (hs.decodes p hp).1]
    refine (entryName_of_length_lt hw ?_).symm
    rw [(hs.decodes p hp).1]
    exact (s.heap p).name.length_lt
  refine ⟨?_, hw, ?_, ?_⟩
  · rw [hs.indexLen.1]
    exact Nat.mul_div_le _ _
  · intro i hi hu
    obtain ⟨p, hp, rfl⟩ := hs.live_of_used hi hu
    rw [hname p hp]
    exact (hs.decodes p hp).1
  · intro i hi j hj hui huj he
    obtain ⟨p, hp, rfl⟩ := hs.live_of_used hi hui
    obtain ⟨q, hq, rfl⟩ := hs.live_of_used hj huj
    rw [hname p hp, hname q hq] at he
    rw [hs.distinct p hp q hq (FileName.ext he)]

theorem Described.extentsDisjoint (hs : Described w s) : ExtentsDisjoint s.indexLen s.dir := by
  intro i hi j hj hij hui huj h0 h1
  obtain ⟨p, hp, rfl⟩ := hs.live_of_used hi hui
  obtain ⟨q, hq, rfl⟩ := hs.live_of_used hj huj
  obtain ⟨-, hlp, hop⟩ := hs.decodes p hp
  obtain ⟨-, hlq, hoq⟩ := hs.decodes q hq
  have hne : p ≠ q := fun he => hij (by rw [he])
  rw [hlp] at h0
  rw [hlq] at h1
  rw [hlp, hlq, hop h0, hoq h1]
  exact hs.disjoint p hp q hq hne h0 h1

/-- The loop of `init_fs` over the entries, started on the three images. -/
theorem initFs_of {file dir hash : List UInt8} {n : ℕ} (hne : file ≠ [] ∧ dir ≠ [] ∧ hash ≠ [])
    (hn : n = dir.length / metaLen) (hle : n ≤ maxNumFiles) :
    initFs file dir hash =
      initLoop 0 n (initState file dir hash ⟨n, .offset, []⟩ ⟨n, .name, []⟩) := by
  have hcap : toI32 (dir.length / metaLen : ℕ) = n := by
    rw [← hn]
    unfold maxNumFiles at hle
    exact toI32_of_bounds (by omega) (by omega)
  have harr : ∀ t, arrInit (toI32 (dir.length / metaLen : ℕ)) t = .ok ⟨n, t, []⟩ := by
    intro t
    unfold arrInit
    rw [hcap, Run.assert_of (by omega)]
    rfl
  unfold initFs
  rw [Run.assert_of hne, harr, harr]
  rfl

/-- Two files with one entry have one view. -/
theorem view_eq_of_entry {f g : FileT} {e : List UInt8}
    (hf : entryName w e = f.name.bytes ∧ entryLength e = f.length ∧
      (f.length ≠ 0 → entryOffset e = f.offset))
    (hg : entryName w e = g.name.bytes ∧ entryLength e = g.length ∧
      (g.length ≠ 0 → entryOffset e = g.offset)) (hi : f.index = g.index) : f.view = g.view := by
  have hlen : f.length = g.length := hf.2.1.symm.trans hg.2.1
  unfold FileT.view
  rw [FileName.ext (hf.1.symm.trans hg.1), hlen, hi]
  split_ifs with h0
  · rfl
  · rw [← hf.2.2 (hlen ▸ h0), ← hg.2.2 h0]

/-- The live files of both filesystems stand for the same entries of the directory. -/
structure SameEntries (s s' : Filesys) : Prop where
  view : ∀ p ∈ s.live, ∀ q ∈ s'.live, (s.heap p).index = (s'.heap q).index →
    (s'.heap q).view = (s.heap p).view
  loaded : ∀ p ∈ s.live, ∃ q ∈ s'.live, (s.heap p).index = (s'.heap q).index
  described : ∀ q ∈ s'.live, ∃ p ∈ s.live, (s.heap p).index = (s'.heap q).index

theorem Described.sameEntries (hw : nameLen - 1 ≤ w) (hs : Described w s)
    (hl : Loaded w s.indexLen s') (hL : OffsetsLoaded s') (hdir : s'.dir = s.dir) :
    SameEntries s s' where
  view := by
    intro p hp q hq he
    have hq' := hl.dir.entry q hq
    have hst := hL.stored q hq
    rw [hdir] at hq' hst
    refine view_eq_of_entry (e := entry s.dir (s.heap p).index) ⟨?_, ?_, ?_⟩ (hs.decodes p hp)
      he.symm
    · rw [he]
      exact hq'.name
    · rw [he]
      exact hq'.length
    · intro h0
      rw [he]
      exact (hst h0).symm
  loaded := by
    intro p hp
    by_contra hcon
    have h0 := hl.dir.free (s.heap p).index (hs.bound p hp) fun q hq he => hcon ⟨q, hq, he.symm⟩
    rw [hdir] at h0
    apply hs.used_of_live hw hp
    cases he : entry s.dir (s.heap p).index with
    | nil => rfl
    | cons b bs =>
      rw [he] at h0
      simpa using h0
  described := by
    intro q hq
    have hu := hl.used q hq
    rw [hdir] at hu
    exact hs.live_of_used (hl.dir.bound q hq) hu

theorem SameEntries.files (h : SameEntries s s') (hs : Described w s) (hl : Loaded w i s') :
    (s'.live.map fun p => (s'.heap p).view).Perm (s.live.map fun p => (s.heap p).view) := by
  apply (List.perm_ext_iff_of_nodup ?_ ?_).mpr
  · intro v
    simp only [List.mem_map]
    constructor
    · rintro ⟨q, hq, rfl⟩
      obtain ⟨p, hp, he⟩ := h.described q hq
      exact ⟨p, hp, (h.view p hp q hq he).symm⟩
    · rintro ⟨p, hp, rfl⟩
      obtain ⟨q, hq, he⟩ := h.loaded p hp
      exact ⟨q, hq, h.view p hp q hq he⟩
  · refine List.Nodup.map_on (fun p hp q hq he => ?_) hl.liveOk.nodup
    exact hl.dir.inj p hp q hq (congrArg FileView.index he)
  · refine List.Nodup.map_on (fun p hp q hq he => ?_) hs.nodup
    exact hs.inj p hp q hq (congrArg FileView.index he)

/-- A slot is taken in both or free in both. -/
theorem SameEntries.index (h : SameEntries s s') (hs : Described w s) (hl : Loaded w n s')
    (hlen : s'.indexLen = s.indexLen) : s'.index = s.index := by
  apply List.ext_getElem?
  intro i
  rcases lt_or_ge i s.indexLen with hi | hi
  · rw [hs.slot i hi]
    rcases hl.counted.slot i (hlen.symm ▸ hi) with ⟨h1, q, hq, rfl⟩ | ⟨h1, h2⟩
    · rw [h1, if_pos (h.described q hq)]
    · rw [h1, if_neg]
      rintro ⟨p, hp, rfl⟩
      obtain ⟨q, hq, he⟩ := h.loaded p hp
      exact h2 q hq he.symm
  · rw [List.getElem?_eq_none, List.getElem?_eq_none]
    · rw [hs.index_length]
      exact hi
    · rw [hl.counted.index_length, hlen]
      exact hi

theorem totalLength_eq_sum (h : Heap) (l : List Ptr) :
    totalLength h l = ((l.map fun p => (h p).view).map FileView.length).sum := by
  rw [List.map_map]
  rfl

/-- **Reopening.**  `init_fs` on the bytes of a described filesystem rebuilds it. -/
theorem initFs_reopened (hw : nameLen - 1 ≤ w ∧ w ≤ nameLen) (hs : Described w s) :
    ∃ s', initFs s.file s.dir s.hash = .ok s' ∧ Reopened s s' := by
  have hd := hs.dirOk hw
  obtain ⟨hn, hle⟩ := hs.indexLen
  rw [initFs_of hs.images hn hle]
  obtain ⟨s', hr, hdir, hsh, hl, hL, hfile, hhash⟩ := initLoop_induct
    (s := initState s.file s.dir s.hash ⟨s.indexLen, .offset, []⟩ ⟨s.indexLen, .name, []⟩)
    (I := fun _ t => OffsetsLoaded t ∧ t.file = s.file ∧ t.hash = s.hash) rfl hd
    (fun i s₁ s₂ hi hdir hl hI hls => by
      have hdir' : s₁.dir = s.dir := hdir
      refine ⟨hls.offsetsLoaded hl hI.1 (hdir'.symm ▸ hs.extentsDisjoint) hi, ?_⟩
      cases hls with
      | skip hu => exact hI.2
      | load hu s₃ hreg =>
        show s₃.file = s.file ∧ s₃.hash = s.hash
        rw [hreg.eq]
        exact hI.2)
    s.indexLen 0 _ (Nat.zero_add _) rfl (Shape.refl _) (initState_loaded hle)
    ⟨⟨List.Perm.nil, List.Pairwise.nil, by simp [initState], by simp [initState]⟩, rfl, rfl⟩
  refine ⟨s', hr, ?_⟩
  have hdir' : s'.dir = s.dir := hdir
  have hlen' : s'.indexLen = s.indexLen := hsh.indexLen
  have hsame := hs.sameEntries hw.1 hl hL hdir'
  have hfiles := hsame.files hs hl
  obtain ⟨A, B, hAB, hA, hA0, hB⟩ := hL.ranked.split
  refine ⟨⟨hfile, hdir', hhash⟩, hfiles, hl.liveOk.perm, hL.perm, hl.sorted,
    ⟨A, B, hAB, hA, hA0, fun p hp => ⟨hB p hp, ?_⟩⟩, hl.liveOk.offsets.idxOk,
    hl.liveOk.names.idxOk, ?_, hsame.index hs hl hlen', ?_⟩
  · refine hL.empty p (hL.perm.mem_iff.mp ?_) (hB p hp)
    rw [hAB]
    exact List.mem_append_right _ hp
  · rw [hl.counted.used, hs.used, totalLength_eq_sum, totalLength_eq_sum,
      (hfiles.map FileView.length).sum_eq]
  · have := hfiles.length_eq
    rw [List.length_map, List.length_map] at this
    rw [hl.counted.count, hs.count, this]

end Reopen

instance (w : ℕ) (s : Filesys) : Decidable (Described w s) :=
  decidable_of_iff
    ((s.file ≠ [] ∧ s.dir ≠ [] ∧ s.hash ≠ []) ∧
      (s.indexLen = s.dir.length / metaLen ∧ s.indexLen ≤ maxNumFiles) ∧ s.live.Nodup ∧
      (∀ p ∈ s.live, (s.heap p).name.bytes ≠ []) ∧
      (∀ p ∈ s.live, ∀ q ∈ s.live, (s.heap p).name = (s.heap q).name → p = q) ∧
      (∀ p ∈ s.live, ∀ q ∈ s.live, p ≠ q → (s.heap p).length ≠ 0 → (s.heap q).length ≠ 0 →
        (s.heap p).offset + (s.heap p).length ≤ (s.heap q).offset ∨
          (s.heap q).offset + (s.heap q).length ≤ (s.heap p).offset) ∧
      (∀ p ∈ s.live, (s.heap p).index < s.indexLen) ∧
      (∀ p ∈ s.live, ∀ q ∈ s.live, (s.heap p).index = (s.heap q).index → p = q) ∧
      (∀ p ∈ s.live, entryName w (entry s.dir (s.heap p).index) = (s.heap p).name.bytes ∧
        entryLength (entry s.dir (s.heap p).index) = (s.heap p).length ∧
        ((s.heap p).length ≠ 0 →
          entryOffset (entry s.dir (s.heap p).index) = (s.heap p).offset)) ∧
      (∀ i < s.indexLen, (∀ p ∈ s.live, (s.heap p).index ≠ i) →
        (entry s.dir i)[0]? = some 0) ∧
      s.index.length = s.indexLen ∧
      (∀ i < s.indexLen,
        s.index[i]? = some (if ∃ p ∈ s.live, (s.heap p).index = i then 1 else 0)) ∧
      s.indexCount = s.live.length ∧ s.used = totalLength s.heap s.live)
    ⟨fun ⟨h1, h2, h3, h4, h5, h6, h7, h8, h9, h10, h11, h12, h13, h14⟩ =>
      ⟨h1, h2, h3, h4, h5, h6, h7, h8, h9, h10, h11, h12, h13, h14⟩,
    fun h => ⟨h.1, h.2, h.3, h.4, h.5, h.6, h.7, h.8, h.9, h.10, h.11, h.12, h.13, h.14⟩⟩

set_option maxRecDepth 20000 in
/-- Two files in arrays that are both out of order. -/
theorem initFs_reopened_unordered : ∃ s s', ¬ OffsetSorted s.heap s.oList.list ∧
    ¬ NameSorted s.heap s.nList.list ∧ initFs s.file s.dir s.hash = .ok s' ∧
    Reopened s s' := by
  obtain ⟨s₀, -, hrun⟩ := Run.holds_iff.mp
    (show Run.Holds (initFs (zeros 256) (zeros 216) (zeros 16)) (fun s₀ =>
      Run.Holds (Trace.run exec [.create (.ofByte 97 (by decide)) 1,
        .create (.ofByte 98 (by decide)) 1, .create (.ofByte 99 (by decide)) 0,
        .delete (.ofByte 97 (by decide)), .resize (.ofByte 99 (by decide)) 1,
        .rename (.ofByte 98 (by decide)) (.ofByte 100 (by decide))] s₀)
        fun r => Described nameLen r.2 ∧ ¬ OffsetSorted r.2.heap r.2.oList.list ∧
          ¬ NameSorted r.2.heap r.2.nList.list) by decide +kernel)
  obtain ⟨⟨as, s⟩, -, hs, ho, hn⟩ := Run.holds_iff.mp hrun
  obtain ⟨s', hr, hre⟩ := initFs_reopened (by decide) hs
  exact ⟨s, s', ho, hn, hr, hre⟩

end Vfs
