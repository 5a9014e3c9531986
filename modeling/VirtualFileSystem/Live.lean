import VirtualFileSystem.Calls

/-!
# The live files and the two arrays

`LiveOk` holds after every call, whatever its arguments: both arrays have correct back-pointers,
`n_list` holds the live files, and the next allocation is fresh.  It is proved from what each part
of a call does to the live files: most parts keep them with their names and slots (`Kept`), one
places a file in `o_list` again (`Placed`), and creation adds one (`Created`).
-/

namespace Vfs

open FlatImage

/-! ## The invariant -/

/-- The arrays and the live files of a filesystem are in order. -/
structure LiveOk (s : Filesys) : Prop where
  offsets : ArrOk .offset s
  names : ArrOk .name s
  perm : s.nList.list.Perm s.live
  fresh : ∀ p ∈ s.live, p < s.next

theorem LiveOk.nodup {s : Filesys} (hs : LiveOk s) : s.live.Nodup :=
  hs.perm.nodup_iff.mp hs.names.nodup

theorem LiveOk.mem_live {s : Filesys} (hs : LiveOk s) {p : Ptr} (hp : p ∈ s.nList.list) :
    p ∈ s.live := hs.perm.mem_iff.mp hp

theorem LiveOk.lookup {s : Filesys} (hs : LiveOk s) {name : CString} {p : Ptr}
    (hr : lookup name s = .ok (some p)) : p ∈ s.live ∧ (s.heap p).name = name.toFileName := by
  obtain ⟨hp, hn⟩ := lookup_some hs.names.type_eq hr
  exact ⟨hs.mem_live hp, hn⟩

/-- What no call changes: the sizes of the mappings, of the directory and of the hash tree. -/
structure Shape (s s' : Filesys) : Prop where
  file : s'.file.length = s.file.length
  dir : s'.dir.length = s.dir.length
  hash : s'.hash.length = s.hash.length
  indexLen : s'.indexLen = s.indexLen
  treeLen : s'.treeLen = s.treeLen
  leafOffset : s'.leafOffset = s.leafOffset

theorem Shape.refl (s : Filesys) : Shape s s := ⟨rfl, rfl, rfl, rfl, rfl, rfl⟩

theorem Shape.trans {s s' s'' : Filesys} (h1 : Shape s s') (h2 : Shape s' s'') : Shape s s'' :=
  ⟨h2.file.trans h1.file, h2.dir.trans h1.dir, h2.hash.trans h1.hash,
    h2.indexLen.trans h1.indexLen, h2.treeLen.trans h1.treeLen, h2.leafOffset.trans h1.leafOffset⟩

/-- The live files, their names, their slots and `n_list` stay as they are. -/
structure Kept (s s' : Filesys) : Prop where
  shape : Shape s s'
  live : s'.live = s.live
  next : s'.next = s.next
  nList : s'.nList = s.nList
  name : ∀ q, (s'.heap q).name = (s.heap q).name
  index : ∀ q, (s'.heap q).index = (s.heap q).index
  nIndex : ∀ q, (s'.heap q).nIndex = (s.heap q).nIndex

section Kept

variable {s s' s'' : Filesys}

theorem Kept.refl (s : Filesys) : Kept s s :=
  ⟨Shape.refl s, rfl, rfl, rfl, fun _ => rfl, fun _ => rfl, fun _ => rfl⟩

theorem Kept.trans (h1 : Kept s s') (h2 : Kept s' s'') : Kept s s'' where
  shape := h1.shape.trans h2.shape
  live := h2.live.trans h1.live
  next := h2.next.trans h1.next
  nList := h2.nList.trans h1.nList
  name := fun q => (h2.name q).trans (h1.name q)
  index := fun q => (h2.index q).trans (h1.index q)
  nIndex := fun q => (h2.nIndex q).trans (h1.nIndex q)

theorem LiveOk.kept (hs : LiveOk s) (hk : Kept s s') (ho : ArrOk .offset s') : LiveOk s' where
  offsets := ho
  names := hs.names.congr hk.nList hk.live hk.nIndex hk.shape.indexLen
  perm := by rw [hk.nList, hk.live]; exact hs.perm
  fresh := by rw [hk.live, hk.next]; exact hs.fresh

theorem HashFrame.kept (hf : HashFrame s s') : Kept s s' := by
  have hlen := hf.hash_length
  rw [hf.eq] at hlen ⊢
  exact ⟨⟨rfl, rfl, hlen, rfl, rfl, rfl⟩, rfl, rfl, rfl, fun _ => rfl, fun _ => rfl, fun _ => rfl⟩

theorem RepackFrame.refl (s : Filesys) : RepackFrame s s :=
  ⟨rfl, OffsetOnly.refl _, fun _ _ => rfl, fun _ => le_rfl, rfl, rfl⟩

theorem newFileOffset_frame {length o : ℕ} {ho ho' : ℤ}
    (hr : newFileOffset length ho s = .ok (o, ho', s')) : RepackFrame s s' := by
  obtain ⟨-, ⟨rfl, -, -⟩ | ⟨-, -, hrep, -⟩⟩ := newFileOffset_post hr
  · exact RepackFrame.refl _
  · exact repackHelper_frame hrep

theorem RepackFrame.kept (hf : RepackFrame s s') : Kept s s' := by
  refine ⟨⟨hf.file_length, hf.dir_length, ?_, ?_, ?_, ?_⟩, ?_, ?_, ?_, hf.offsetOnly.name,
    hf.offsetOnly.index, hf.offsetOnly.pos .name⟩ <;> rw [hf.eq]

theorem RepackFrame.arrOk (hf : RepackFrame s s') {t : ArrType} (hs : ArrOk t s) : ArrOk t s' := by
  refine hs.congr ?_ ?_ (hf.offsetOnly.pos t) ?_ <;> rw [hf.eq]
  cases t <;> rfl

theorem RepackFrame.liveOk (hf : RepackFrame s s') (hs : LiveOk s) : LiveOk s' :=
  hs.kept hf.kept (hf.arrOk hs.offsets)

/-- Changing the bytes of `file_data` keeps the live files. -/
theorem LiveOk.file (hs : LiveOk s) (file : List UInt8) : LiveOk { s with file := file } :=
  ⟨hs.offsets.congr rfl rfl (fun _ => rfl) rfl, hs.names.congr rfl rfl (fun _ => rfl) rfl,
    hs.perm, hs.fresh⟩

theorem Kept.file {file : List UInt8} (hlen : file.length = s.file.length) :
    Kept s { s with file := file } :=
  ⟨⟨hlen, rfl, rfl, rfl, rfl, rfl⟩, rfl, rfl, rfl, fun _ => rfl, fun _ => rfl, fun _ => rfl⟩

theorem Kept.used (v : ℤ) (s : Filesys) : Kept s { s with used := v } :=
  ⟨⟨rfl, rfl, rfl, rfl, rfl, rfl⟩, rfl, rfl, rfl, fun _ => rfl, fun _ => rfl, fun _ => rfl⟩

theorem LiveOk.used (hs : LiveOk s) (v : ℤ) : LiveOk { s with used := v } :=
  ⟨hs.offsets.congr rfl rfl (fun _ => rfl) rfl, hs.names.congr rfl rfl (fun _ => rfl) rfl,
    hs.perm, hs.fresh⟩

theorem HashFrame.arrOk (hf : HashFrame s s') {t : ArrType} (hs : ArrOk t s) : ArrOk t s' := by
  rw [hf.eq]
  exact hs.congr (by cases t <;> rfl) rfl (fun _ => rfl) rfl

theorem HashFrame.liveOk (hf : HashFrame s s') (hs : LiveOk s) : LiveOk s' :=
  hs.kept hf.kept (hf.arrOk hs.offsets)

end Kept

/-! ## Taking a file out of `o_list` and placing it again -/

/-- The file is removed from `o_list`; nothing else but stored positions changes. -/
structure TakenOut (p : Ptr) (s s' : Filesys) : Prop where
  eq : s' = { s with oList := s'.oList, heap := s'.heap }
  removed : Removed p s.oList s.heap s'.oList s'.heap
  posOnly : PosOnly .offset s.heap s'.heap
  arrOk : ArrOk .offset s'

section TakenOut

variable {p : Ptr} {s s' : Filesys}

theorem takenOut_of_removed (hs : ArrOk .offset s) {arr : Arr} {h : Heap}
    (hrem : Removed p s.oList s.heap arr h) : TakenOut p s (s.setArr .offset arr h) := by
  refine ⟨rfl, hrem, ?_, hs.removed hrem⟩
  have := hrem.posOnly
  rwa [show s.oList.type = .offset from hs.type_eq] at this

theorem takenOut_post (hs : ArrOk .offset s) (hp : p ∈ s.live)
    (hr : removeAt .offset (s.heap p).oIndex s = .ok s') : TakenOut p s s' := by
  obtain ⟨arr, h, rfl, hrem⟩ := removeAt_post (t := .offset) hs hp hr
  exact takenOut_of_removed hs hrem

theorem TakenOut.oList (ht : TakenOut p s s') :
    s'.oList = { s.oList with list := s.oList.list.erase p } := ht.removed.arr_eq

theorem TakenOut.list (ht : TakenOut p s s') : s'.oList.list = s.oList.list.erase p := by
  rw [ht.oList]

theorem TakenOut.not_mem (ht : TakenOut p s s') (hs : ArrOk .offset s) : p ∉ s'.oList.list := by
  rw [ht.oList]
  exact fun h => (hs.nodup.mem_erase_iff.mp h).1 rfl

theorem TakenOut.kept (ht : TakenOut p s s') : Kept s s' := by
  refine ⟨⟨?_, ?_, ?_, ?_, ?_, ?_⟩, ?_, ?_, ?_, ht.posOnly.name, ht.posOnly.index,
    ht.posOnly.pos_of_ne (show .name ≠ ArrType.offset by decide)⟩ <;> rw [ht.eq]

theorem TakenOut.liveOk (ht : TakenOut p s s') (hs : LiveOk s) : LiveOk s' :=
  hs.kept ht.kept ht.arrOk

end TakenOut

/-- The file gets the offset `o`, in memory and in its directory entry, and joins `o_list` at the
position the search returns. -/
structure Placed (p : Ptr) (o : ℕ) (s s' : Filesys) : Prop where
  eq : s' = { s with oList := s'.oList, heap := s'.heap, dir := s'.dir }
  dir : s'.dir = splice s.dir (metaLen * (s.heap p).index + nameLen) (dirOffsetBytes o)
  dir_le : metaLen * (s.heap p).index + nameLen + 4 ≤ s.dir.length
  posOnly : PosOnly .offset (s.heap.set p { s.heap p with offset := o }) s'.heap
  arrOk : ArrOk .offset s'
  search : (s'.oList = s.oList ∧
      arrGetIndex { s.heap p with offset := o } s.oList s.heap true = .ok (-1)) ∨
    ∃ i : ℕ, s'.oList = { s.oList with list := insertAt s.oList.list i p } ∧
      arrGetIndex { s.heap p with offset := o } s.oList s.heap true = .ok (i : ℤ)

section Placed

variable {p : Ptr} {o : ℕ} {s s₁ s' : Filesys}

theorem placed_post (hs : ArrOk .offset s) (hp : p ∈ s.live) (hpo : p ∉ s.oList.list)
    (hd : updateDirOffset ((updateFileOffset o p s).heap p) (updateFileOffset o p s) = .ok s₁)
    (hr : sortedInsert .offset p s₁ = .ok s') : Placed p o s s' := by
  rw [updateDirOffset_eq] at hd
  obtain ⟨hb, rfl⟩ := writeDir_eq_ok.mp hd
  simp only [updateFileOffset, Heap.set_self, length_dirOffsetBytes] at hb hr
  have hok : ArrOk .offset { s with
      heap := s.heap.set p { s.heap p with offset := o }
      dir := splice s.dir (metaLen * (s.heap p).index + nameLen) (dirOffsetBytes o) } :=
    hs.congr rfl rfl ((offsetOnly_set s.heap p o).pos .offset) rfl
  -- the search reads the other records only
  have hread : arrGetIndex { s.heap p with offset := o } s.oList
      (s.heap.set p { s.heap p with offset := o }) true =
      arrGetIndex { s.heap p with offset := o } s.oList s.heap true :=
    arrGetIndex_congr (FileT.Same.refl _) fun q hq => by
      have hqp : q ≠ p := fun he => hpo (he ▸ hq)
      rw [Heap.set_of_ne _ _ hqp]
      exact FileT.Same.refl _
  obtain ⟨-, ⟨rfl, hget⟩ | ⟨i, arr, h, rfl, hins, hget⟩⟩ := sortedInsert_post hok hpo hr
  · refine ⟨rfl, rfl, hb, PosOnly.refl .offset _, hok, Or.inl ⟨rfl, ?_⟩⟩
    rw [← hread]
    simpa only [Heap.set_self, arr_offset] using hget
  · refine ⟨rfl, rfl, hb, ?_, hok.inserted hins hp, Or.inr ⟨i, hins.arr_eq, ?_⟩⟩
    · have hpos : PosOnly s.oList.type _ h := hins.posOnly
      rwa [show s.oList.type = .offset from hs.type_eq] at hpos
    · rw [← hread]
      simpa only [Heap.set_self, arr_offset] using hget

theorem Placed.same (h : Placed p o s s') (q : Ptr) :
    (s'.heap q).Same (s.heap.set p { s.heap p with offset := o } q) := h.posOnly.same q

theorem Placed.same_of_ne (h : Placed p o s s') {q : Ptr} (hq : q ≠ p) :
    (s'.heap q).Same (s.heap q) := by
  have := h.same q
  rwa [Heap.set_of_ne _ _ hq] at this

theorem Placed.same_self (h : Placed p o s s') :
    (s'.heap p).Same { s.heap p with offset := o } := by
  have := h.same p
  rwa [Heap.set_self] at this

theorem Placed.length (h : Placed p o s s') (q : Ptr) : (s'.heap q).length = (s.heap q).length := by
  rw [h.posOnly.length, (offsetOnly_set s.heap p o).length]

theorem Placed.kept (h : Placed p o s s') : Kept s s' := by
  have hoff := offsetOnly_set s.heap p o
  have hdir : s'.dir.length = s.dir.length := by
    rw [h.dir]
    exact length_splice (by rw [length_dirOffsetBytes]; exact h.dir_le)
  refine ⟨⟨?_, hdir, ?_, ?_, ?_, ?_⟩, ?_, ?_, ?_, fun q => ?_, fun q => ?_, fun q => ?_⟩
  · rw [h.eq]
  · rw [h.eq]
  · rw [h.eq]
  · rw [h.eq]
  · rw [h.eq]
  · rw [h.eq]
  · rw [h.eq]
  · rw [h.eq]
  · rw [h.posOnly.name, hoff.name]
  · rw [h.posOnly.index, hoff.index]
  · exact (h.posOnly.pos_of_ne (show .name ≠ ArrType.offset by decide) q).trans (hoff.pos .name q)

theorem Placed.liveOk (h : Placed p o s s') (hs : LiveOk s) : LiveOk s' :=
  hs.kept h.kept h.arrOk

end Placed

/-! ## Growing -/

section Grow

variable {p : Ptr} {length copy : ℕ} {s s' : Filesys} {ho : ℤ}

/-- `growNewFile` takes the file out, repacks if the first gap is too small, and places it. -/
theorem growNewFile_steps (hs : LiveOk s) (hp : p ∈ s.live)
    (hr : growNewFile p length s = .ok (ho, s')) :
    ∃ s₁ s₂ o, TakenOut p s s₁ ∧
      ((ho = -1 ∧ s₂ = s₁ ∧ o = 0 ∧ (∀ q, findNextNonzeroFile 0 s₁.oList s₁.heap = some q →
          length ≤ (s₁.heap q).offset)) ∨
        (repackHelper s₁ = .ok (ho, s₂) ∧ RepackFrame s₁ s₂ ∧ o = toU64 s₂.used ∧
          ∃ q, findNextNonzeroFile 0 s₁.oList s₁.heap = some q ∧
            (s₁.heap q).offset < length)) ∧ Placed p o s₂ s' := by
  obtain ⟨s₁, s₂, s₃, o, h1, h2, h3, h4⟩ := growNewFile_post hr
  have ht := takenOut_post hs.offsets hp h1
  have hs₁ := ht.liveOk hs
  have hp₁ : p ∈ s₁.live := by rw [ht.kept.live]; exact hp
  rcases h2 with ⟨rfl, rfl, rfl, hf⟩ | ⟨hrep, rfl, hf⟩
  · exact ⟨s₂, s₂, 0, ht, Or.inl ⟨rfl, rfl, rfl, hf⟩,
      placed_post hs₁.offsets hp₁ (ht.not_mem hs.offsets) h3 h4⟩
  · have hframe := repackHelper_frame hrep
    have ho : s₂.oList = s₁.oList := by rw [hframe.eq]
    refine ⟨s₁, s₂, _, ht, Or.inr ⟨hrep, hframe, rfl, hf⟩, ?_⟩
    exact placed_post (hframe.arrOk hs₁.offsets) (by rw [hframe.kept.live]; exact hp₁)
      (by rw [ho]; exact ht.not_mem hs.offsets) h3 h4

/-- `relocateFile` takes the file out, repacks the others, writes the saved bytes behind them and
places the file there. -/
theorem relocateFile_steps (hs : LiveOk s) (hp : p ∈ s.live)
    (hr : relocateFile p copy s = .ok (ho, s')) :
    ∃ s₁ s₂ temp file, memRead s.file (s.heap p).offset copy = .ok temp ∧ TakenOut p s s₁ ∧
      repackHelper s₁ = .ok (ho, s₂) ∧ RepackFrame s₁ s₂ ∧
      memWrite s₂.file (s₂.used - (s.heap p).length) temp = .ok file ∧
      Placed p (toU64 (s₂.used - (s.heap p).length)) { s₂ with file := file } s' := by
  obtain ⟨s₁, s₂, s₃, temp, file, h0, h1, h2, h3, h4, h5⟩ := relocateFile_post hr
  have ht := takenOut_post hs.offsets hp h1
  have hs₁ := ht.liveOk hs
  have hp₁ : p ∈ s₁.live := by rw [ht.kept.live]; exact hp
  have hframe := repackHelper_frame h2
  have ho : s₂.oList = s₁.oList := by rw [hframe.eq]
  refine ⟨s₁, s₂, temp, file, h0, ht, h2, hframe, h3, ?_⟩
  refine placed_post (s := { s₂ with file := file }) ?_ ?_ ?_ h4 h5
  · exact (hframe.arrOk hs₁.offsets).congr rfl rfl (fun _ => rfl) rfl
  · show p ∈ s₂.live
    rw [hframe.kept.live]; exact hp₁
  · show p ∉ s₂.oList.list
    rw [ho]; exact ht.not_mem hs.offsets

theorem makeRoom_liveOk (hs : LiveOk s) (hp : p ∈ s.live)
    (hr : makeRoom p length copy s = .ok (ho, s')) : LiveOk s' ∧ Kept s s' := by
  rcases makeRoom_post hr with ⟨-, hr⟩ | ⟨-, -, hr⟩ | ⟨-, -, rfl, rfl⟩
  · obtain ⟨s₁, s₂, o, ht, h2, hpl⟩ := growNewFile_steps hs hp hr
    have hs₁ := ht.liveOk hs
    have hs₂ : LiveOk s₂ ∧ Kept s₁ s₂ := by
      rcases h2 with ⟨-, rfl, -⟩ | ⟨-, hframe, -⟩
      · exact ⟨hs₁, Kept.refl _⟩
      · exact ⟨hframe.liveOk hs₁, hframe.kept⟩
    exact ⟨hpl.liveOk hs₂.1, (ht.kept.trans hs₂.2).trans hpl.kept⟩
  · obtain ⟨s₁, s₂, temp, file, -, ht, -, hframe, hw, hpl⟩ := relocateFile_steps hs hp hr
    have hk := Kept.file (s := s₂) (memWrite_length hw)
    exact ⟨hpl.liveOk ((hframe.liveOk (ht.liveOk hs)).file file),
      ((ht.kept.trans hframe.kept).trans hk).trans hpl.kept⟩
  · exact ⟨hs, Kept.refl _⟩

theorem setLength_kept (old : ℕ) {dir : List UInt8} (hdir : dir.length = s.dir.length) :
    Kept s (setLength p length old dir s) := by
  refine ⟨⟨rfl, hdir, rfl, rfl, rfl, rfl⟩, rfl, rfl, rfl, fun q => ?_, fun q => ?_,
    fun q => ?_⟩ <;>
  · unfold setLength
    by_cases hq : q = p
    · subst hq; simp
    · simp [Heap.set_of_ne _ _ hq]

theorem setLength_liveOk (hs : LiveOk s) (old : ℕ) {dir : List UInt8}
    (hdir : dir.length = s.dir.length) : LiveOk (setLength p length old dir s) := by
  refine hs.kept (setLength_kept old hdir) (hs.offsets.congr rfl rfl (fun q => ?_) rfl)
  show ((s.heap.set p _ q).pos .offset) = _
  by_cases hq : q = p
  · subst hq; rw [Heap.set_self]; rfl
  · rw [Heap.set_of_ne _ _ hq]

theorem resizeFileHelper_liveOk (hs : LiveOk s) (hp : p ∈ s.live)
    (hr : resizeFileHelper p length copy s = .ok (ho, s')) : LiveOk s' ∧ Kept s s' := by
  rcases resizeFileHelper_post hr with ⟨-, rfl, -⟩ | ⟨-, s₁, h1, hb, rfl⟩
  · exact ⟨hs, Kept.refl _⟩
  · have hdir := @length_splice _ s₁.dir
      (metaLen * (s₁.heap p).index + (nameLen + offsetLen)) (le32 (toU32 length)) hb
    have hs₁ : LiveOk s₁ ∧ Kept s s₁ := by
      rcases h1 with ⟨-, rfl, -⟩ | ⟨-, hr⟩
      · exact ⟨hs, Kept.refl _⟩
      · exact makeRoom_liveOk hs hp hr
    exact ⟨setLength_liveOk hs₁.1 _ hdir, hs₁.2.trans (setLength_kept _ hdir)⟩

theorem writeNullFile_liveOk {o c : ℤ} (hs : LiveOk s) (hr : writeNullFile o c s = .ok s') :
    LiveOk s' ∧ Kept s s' := by
  rcases writeNullFile_post hr with ⟨-, rfl⟩ | ⟨hc, -, ho, hb, rfl⟩
  · exact ⟨hs, Kept.refl _⟩
  · refine ⟨hs.file _, Kept.file (length_splice ?_)⟩
    rw [List.length_replicate]
    omega

theorem resizeFileAt_liveOk (hs : LiveOk s) (hp : p ∈ s.live)
    (hr : resizeFileAt p length s = .ok s') : LiveOk s' ∧ Kept s s' := by
  obtain ⟨ho, s₁, h1, h2⟩ := resizeFileAt_post hr
  obtain ⟨hs₁, hk₁⟩ := resizeFileHelper_liveOk hs hp h1
  rcases h2 with ⟨-, rfl⟩ | ⟨-, s₂, h2, h3⟩
  · exact ⟨hs₁, hk₁⟩
  · obtain ⟨hs₂, hk₂⟩ := writeNullFile_liveOk hs₁ h2
    have hframe := hashEither_frame h3
    exact ⟨hframe.liveOk hs₂, (hk₁.trans hk₂).trans hframe.kept⟩

theorem writeFileAt_liveOk {offset count : ℕ} {buf : List UInt8} (hs : LiveOk s)
    (hp : p ∈ s.live) (hr : writeFileAt p offset count buf s = .ok s') :
    LiveOk s' ∧ Kept s s' := by
  obtain ⟨ho, s₁, h1, hcount, hb, h2⟩ := writeFileAt_post hr
  have hlen := length_splice_take buf hb
  obtain ⟨hs₁, hk₁⟩ : LiveOk s₁ ∧ Kept s s₁ := by
    rcases h1 with ⟨-, -, rfl⟩ | ⟨-, h1⟩
    · exact ⟨hs, Kept.refl _⟩
    · exact resizeFileHelper_liveOk hs hp h1
  have hframe := hashEither_frame h2
  exact ⟨hframe.liveOk (hs₁.file _), (hk₁.trans (Kept.file hlen)).trans hframe.kept⟩

theorem repack_liveOk (hs : LiveOk s) (hr : repack s = .ok s') : LiveOk s' ∧ Kept s s' := by
  obtain ⟨ho, s₁, h1, hhash⟩ := repack_frame hr
  have hframe := repackHelper_frame h1
  exact ⟨hhash.liveOk (hframe.liveOk hs), hframe.kept.trans hhash.kept⟩

end Grow

/-! ## Creating, deleting, renaming -/

/-- A new record with the given fields, in both arrays if `o_list` has a place for it. -/
structure Registered (name : FileName) (o length i : ℕ) (s s' : Filesys) : Prop where
  eq : s' = { s with
    heap := s'.heap, next := s.next + 1, live := s.next :: s.live
    oList := s'.oList, nList := s'.nList }
  new : (s'.heap s.next).Same ⟨name, o, length, i, -1, -1⟩
  old : ∀ q, q ≠ s.next → (s'.heap q).Same (s.heap q)
  oSearch : (s'.oList = s.oList ∧
      arrGetIndex ⟨name, o, length, i, -1, -1⟩ s.oList s.heap true = .ok (-1)) ∨
    ∃ j : ℕ, s'.oList = { s.oList with list := insertAt s.oList.list j s.next } ∧
      arrGetIndex ⟨name, o, length, i, -1, -1⟩ s.oList s.heap true = .ok (j : ℤ)
  nSearch : ∃ j : ℕ, s'.nList = { s.nList with list := insertAt s.nList.list j s.next } ∧
    arrGetIndex ⟨name, o, length, i, -1, -1⟩ s.nList s.heap true = .ok (j : ℤ)
  liveOk : LiveOk s'

/-- A new file in slot `i`: its record, its directory entry and its slot. -/
structure Created (name : FileName) (o length i : ℕ) (s s' : Filesys) : Prop where
  registered : ∃ s₁, Registered name o length i s s₁ ∧ s' = { s₁ with
    dir := s'.dir, index := s.index.set i 1, indexCount := s.indexCount + 1 }
  dir : ∃ d₁ d₂, d₁ = splice s.dir (metaLen * i) (name.bytes ++ [0]) ∧
    d₂ = splice d₁ (metaLen * i + nameLen) (dirOffsetBytes o) ∧
    s'.dir = splice d₂ (metaLen * i + (nameLen + offsetLen)) (le32 length)
  dir_le : metaLen * i + (nameLen + offsetLen) + 4 ≤ s.dir.length
  shape : Shape s s'
  liveOk : LiveOk s'

section Create

variable {s s' : Filesys}

theorem Registered.live {name : FileName} {o length i : ℕ}
    (hreg : Registered name o length i s s') : s'.live = s.next :: s.live := by rw [hreg.eq]

/-- The record stands in `o_list` where the search says. -/
theorem Registered.oList {name : FileName} {o length i j : ℕ}
    (hreg : Registered name o length i s s')
    (hget : arrGetIndex ⟨name, o, length, i, -1, -1⟩ s.oList s.heap true = .ok (j : ℤ)) :
    s'.oList.list = insertAt s.oList.list j s.next := by
  rcases hreg.oSearch with ⟨-, hi⟩ | ⟨k, hl, hi⟩
  · have : (j : ℤ) = -1 := Except.ok.inj (hget.symm.trans hi)
    omega
  · have hjk : (j : ℤ) = k := Except.ok.inj (hget.symm.trans hi)
    obtain rfl : j = k := by exact_mod_cast hjk
    rw [hl]

/-- What a search finds is found again in a heap that differs elsewhere. -/
theorem arrGetIndex_fresh {f : FileT} {arr : Arr} {h h' : Heap} {x : Ptr} {insert : Bool}
    (hx : x ∉ arr.list) (hh : ∀ q, q ≠ x → (h' q).Same (h q)) :
    arrGetIndex f arr h' insert = arrGetIndex f arr h insert :=
  arrGetIndex_congr (FileT.Same.refl _) fun q hq => hh q fun he => hx (he ▸ hq)

theorem fileInit_arrOk {t : ArrType} (hs : ArrOk t s) (hf : ∀ p ∈ s.live, p < s.next)
    (name : FileName) (o length i : ℕ) : ArrOk t (fileInit name o length i s).2 := by
  have hne : ∀ q ∈ s.live, q ≠ s.next := fun q hq => (hf q hq).ne
  have harr : (fileInit name o length i s).2.arr t = s.arr t := by cases t <;> rfl
  refine ⟨by rw [harr]; exact hs.type_eq, ?_, ?_, ?_, by rw [harr]; exact hs.capacity⟩
  · rw [harr]
    refine hs.idxOk.congr_pos fun p hp => ?_
    simp only [fileInit]
    rw [Heap.set_of_ne _ _ (hne p (hs.mem_live p hp))]
  · rw [harr]
    exact fun p hp => List.mem_cons_of_mem _ (hs.mem_live p hp)
  · rw [harr]
    intro p hp hpn
    simp only [fileInit] at hp ⊢
    by_cases hpx : p = s.next
    · subst hpx
      rw [Heap.set_self]
      cases t <;> rfl
    · rw [Heap.set_of_ne _ _ hpx]
      exact hs.out p ((List.mem_cons.mp hp).resolve_left hpx) hpn

/-- With room in the arrays both insertions of a new record complete. -/
theorem register_total (hs : LiveOk s) (hroom : s.live.length < s.indexLen) (name : FileName)
    (o length i : ℕ) :
    ∃ s₁ s₂, sortedInsert .offset s.next (fileInit name o length i s).2 = .ok s₁ ∧
      sortedInsert .name s.next s₁ = .ok s₂ := by
  have hfresh : s.next ∉ s.live := fun hm => (hs.fresh _ hm).false
  have hxo : s.next ∉ s.oList.list := fun hm => hfresh (hs.offsets.mem_live _ hm)
  have hxn : s.next ∉ s.nList.list := fun hm => hfresh (hs.names.mem_live _ hm)
  have ho₀ := fileInit_arrOk hs.offsets hs.fresh name o length i
  have hn₀ := fileInit_arrOk hs.names hs.fresh name o length i
  obtain ⟨s₁, h1⟩ := sortedInsert_total ho₀ hxo (by
    have hle := hs.offsets.length_le
    have hcap := hs.offsets.capacity
    exact lt_of_le_of_lt hle (hcap ▸ hroom))
  obtain ⟨hn₁, harr⟩ : ArrOk .name s₁ ∧ s₁.nList = s.nList := by
    obtain ⟨-, ⟨rfl, -⟩ | ⟨k, arr, h, rfl, hins, -⟩⟩ := sortedInsert_post ho₀ hxo h1
    · exact ⟨hn₀, rfl⟩
    · have hpos := hins.posOnly
      rw [ho₀.type_eq] at hpos
      exact ⟨hn₀.of_posOnly (by decide) hpos, rfl⟩
  obtain ⟨s₂, h2⟩ := sortedInsert_total (p := s.next) hn₁ (by rw [arr_name, harr]; exact hxn) (by
    have hle := hs.names.length_le
    have hcap := hs.names.capacity
    rw [arr_name, harr]
    exact lt_of_le_of_lt hle (hcap ▸ hroom))
  exact ⟨s₁, s₂, h1, h2⟩

theorem registered_post {name : FileName} {o length i : ℕ} {s₂ : Filesys} (hs : LiveOk s)
    (hn : ∃ j : ℕ, arrGetIndex ⟨name, o, length, i, -1, -1⟩ s.nList s.heap true = .ok (j : ℤ))
    (h2 : sortedInsert .offset s.next (fileInit name o length i s).2 = .ok s₂)
    (h3 : sortedInsert .name s.next s₂ = .ok s') : Registered name o length i s s' := by
  have hfresh : s.next ∉ s.live := fun hm => (hs.fresh _ hm).false
  have hxo : s.next ∉ s.oList.list := fun hm => hfresh (hs.offsets.mem_live _ hm)
  have hxn : s.next ∉ s.nList.list := fun hm => hfresh (hs.names.mem_live _ hm)
  -- the record in the heap, before the arrays know it
  have ho₁ := fileInit_arrOk hs.offsets hs.fresh name o length i
  have hn₁ := fileInit_arrOk hs.names hs.fresh name o length i
  have hheap₁ : ∀ q, q ≠ s.next → ((fileInit name o length i s).2.heap q).Same (s.heap q) :=
    fun q hq => by
      simp only [fileInit, Heap.set_of_ne _ _ hq]
      exact FileT.Same.refl _
  have hnew₁ : (fileInit name o length i s).2.heap s.next = ⟨name, o, length, i, -1, -1⟩ := by
    simp only [fileInit, Heap.set_self]
  have hlive₁ : s.next ∈ (fileInit name o length i s).2.live := List.mem_cons_self
  -- the record in `o_list`
  obtain ⟨arr₂, hp₂, rfl, hpos₂, hok₂, hsearch₂⟩ : ∃ arr h,
      s₂ = (fileInit name o length i s).2.setArr .offset arr h ∧
      PosOnly .offset (fileInit name o length i s).2.heap h ∧
      ArrOk .offset ((fileInit name o length i s).2.setArr .offset arr h) ∧
      ((arr = s.oList ∧
        arrGetIndex ⟨name, o, length, i, -1, -1⟩ s.oList s.heap true = .ok (-1)) ∨
        ∃ j : ℕ, arr = { s.oList with list := insertAt s.oList.list j s.next } ∧
          arrGetIndex ⟨name, o, length, i, -1, -1⟩ s.oList s.heap true = .ok (j : ℤ)) := by
    rw [← arrGetIndex_fresh hxo hheap₁, ← hnew₁]
    obtain ⟨-, ⟨rfl, hget⟩ | ⟨j, arr, h, rfl, hins, hget⟩⟩ := sortedInsert_post ho₁ hxo h2
    · exact ⟨s.oList, (fileInit name o length i s).2.heap, rfl, PosOnly.refl _ _, ho₁,
        Or.inl ⟨rfl, hget⟩⟩
    · have hpos : PosOnly s.oList.type _ h := hins.posOnly
      rw [show s.oList.type = .offset from hs.offsets.type_eq] at hpos
      exact ⟨arr, h, rfl, hpos, ho₁.inserted hins hlive₁, Or.inr ⟨j, hins.arr_eq, hget⟩⟩
  have hn₂ := hn₁.of_posOnly (by decide) (a := arr₂) hpos₂
  have hheap₂ : ∀ q, q ≠ s.next → (hp₂ q).Same (s.heap q) :=
    fun q hq => (hpos₂.same q).trans (hheap₁ q hq)
  -- the record in `n_list`, where its name is new
  have hread : arrGetIndex (hp₂ s.next) s.nList hp₂ true =
      arrGetIndex ⟨name, o, length, i, -1, -1⟩ s.nList s.heap true := by
    rw [← arrGetIndex_fresh hxn hheap₂]
    refine arrGetIndex_congr ?_ fun _ _ => FileT.Same.refl _
    rw [← hnew₁]
    exact hpos₂.same _
  obtain ⟨j, hj⟩ := hn
  obtain ⟨-, ⟨rfl, hget⟩ | ⟨j', arr₃, hp₃, rfl, hins, hget⟩⟩ := sortedInsert_post hn₂ hxn h3
  · rw [setArr_heap] at hget
    have := (hread.symm.trans hget).symm.trans hj
    simp at this
  have hpos₃ : PosOnly s.nList.type _ hp₃ := hins.posOnly
  rw [show s.nList.type = .name from hs.names.type_eq, setArr_heap] at hpos₃
  rw [setArr_heap] at hget
  have hok₃ := hn₂.inserted hins hlive₁
  have hok₂' := hok₂.of_posOnly (by decide) (a := arr₃) hpos₃
  refine ⟨rfl, ?_, fun q hq => (hpos₃.same q).trans (hheap₂ q hq), hsearch₂,
    ⟨j', hins.arr_eq, hread.symm.trans hget⟩, hok₂', hok₃, ?_, ?_⟩
  · rw [← hnew₁]
    exact (hpos₃.same _).trans (hpos₂.same _)
  · show arr₃.list.Perm (s.next :: s.live)
    rw [hins.arr_eq]
    exact (insertAt_perm _ _ _).trans (hs.perm.cons _)
  · intro p hp
    rcases List.mem_cons.mp hp with rfl | hp
    · exact Nat.lt_succ_self _
    · exact (hs.fresh p hp).trans (Nat.lt_succ_self _)

theorem created_post {name : FileName} {o length i : ℕ} {s₂ s₃ s₄ : Filesys} (hs : LiveOk s)
    (hn : ∃ j : ℕ, arrGetIndex ⟨name, o, length, i, -1, -1⟩ s.nList s.heap true = .ok (j : ℤ))
    (h2 : sortedInsert .offset s.next (fileInit name o length i s).2 = .ok s₂)
    (h3 : sortedInsert .name s.next s₂ = .ok s₃)
    (h4 : writeDirFile (s₃.heap s.next) s₃ = .ok s₄) :
    Created name o length i s
      { s₄ with index := s₄.index.set i 1, indexCount := s₄.indexCount + 1 } := by
  have hreg := registered_post hs hn h2 h3
  have hdir : s₃.dir = s.dir := by rw [hreg.eq]
  have hindex : s₃.index = s.index := by rw [hreg.eq]
  have hcount : s₃.indexCount = s.indexCount := by rw [hreg.eq]
  obtain ⟨d₁, d₂, hb1, hb, hd1, hd2, rfl⟩ := writeDirFile_post h4
  simp only [hreg.new.1, hreg.new.2.1, hreg.new.2.2.1, hreg.new.2.2.2, hdir, hindex, hcount]
    at hb1 hb hd1 hd2 ⊢
  have hl1 : d₁.length = s.dir.length := by
    rw [hd1]
    exact length_splice (by simpa using hb1)
  have hl2 : d₂.length = s.dir.length := by
    rw [hd2, length_splice (by rw [length_dirOffsetBytes]; omega), hl1]
  refine ⟨⟨s₃, hreg, rfl⟩, ⟨d₁, d₂, hd1, hd2, rfl⟩, hb, ⟨?_, ?_, ?_, ?_, ?_, ?_⟩, ?_⟩
  · show s₃.file.length = _
    rw [hreg.eq]
  · show (splice d₂ _ _).length = _
    rw [length_splice (by rw [length_le32]; omega), hl2]
  · show s₃.hash.length = _
    rw [hreg.eq]
  · show s₃.indexLen = _
    rw [hreg.eq]
  · show s₃.treeLen = _
    rw [hreg.eq]
  · show s₃.leafOffset = _
    rw [hreg.eq]
  exact ⟨hreg.liveOk.offsets.congr rfl rfl (fun _ => rfl) rfl,
    hreg.liveOk.names.congr rfl rfl (fun _ => rfl) rfl, hreg.liveOk.perm, hreg.liveOk.fresh⟩

theorem Created.used {name : FileName} {o length i : ℕ} (hc : Created name o length i s s') :
    s'.used = s.used := by
  obtain ⟨s₁, hreg, heq⟩ := hc.registered
  rw [heq]
  show s₁.used = s.used
  rw [hreg.eq]

theorem writeNullFile_used {o c : ℤ} (hr : writeNullFile o c s = .ok s') : s'.used = s.used := by
  rcases writeNullFile_post hr with ⟨-, rfl⟩ | ⟨-, -, -, -, rfl⟩
  · rfl
  · rfl

/-- A name that is not found has a place in the array, also after a repack. -/
theorem insert_of_lookup_none {name : CString} {s₁ : Filesys} (hs : LiveOk s)
    (hframe : RepackFrame s s₁) (hne : name.bytes ≠ []) (hl : lookup name s = .ok none)
    (o length i : ℕ) : ∃ j : ℕ, arrGetIndex ⟨name.toFileName, o, length, i, -1, -1⟩ s₁.nList
      s₁.heap true = .ok (j : ℤ) := by
  refine arrGetIndex_insert_of_search (hframe.liveOk hs).names.type_eq ?_
  rw [hframe.kept.nList]
  refine Eq.trans ?_ (lookup_none hs.names.type_eq hne hl)
  have ht : s.nList.type = .name := hs.names.type_eq
  apply arrGetIndex_name_congr ht
  · rfl
  · exact fun p _ => hframe.kept.name p

/-- The steps of a completed creation of a name that is not there. -/
theorem createFileAt_steps {name : CString} {length : ℕ} (hs : LiveOk s) (hne : name.bytes ≠ [])
    (hl : lookup name s = .ok none) (hr : createFileAt name length s = .ok s') :
    ∃ i o ho s₁ s₂, newFileIndex s = .ok i ∧ newFileOffset length (-1) s = .ok (o, ho, s₁) ∧
      RepackFrame s s₁ ∧ Created name.toFileName o (toU32 length) i s₁ s₂ ∧
      ((length = 0 ∧ s' = s₂) ∨
        (0 < length ∧ ∃ s₃, writeNullFile (toI64 o) (toI64 length) s₂ = .ok s₃ ∧
          ((0 ≤ ho ∧ computeHashBlockRange ho (toI64 (s₃.used + length) - ho)
              { s₃ with used := toI64 (s₃.used + length) } = .ok s') ∨
            (ho < 0 ∧ computeHashBlockRange (toI64 o) (toI64 length)
              { s₃ with used := toI64 (s₃.used + length) } = .ok s')))) := by
  obtain ⟨i, o, ho, s₁, s₂, s₃, s₄, h1, h2, h3, h4, h5, h6⟩ := createFileAt_post hr
  have hframe := newFileOffset_frame h2
  have hsearch := insert_of_lookup_none hs hframe hne hl o (toU32 length) i
  exact ⟨i, o, ho, s₁, _, h1, h2, hframe, created_post (hframe.liveOk hs) hsearch h3 h4 h5, h6⟩

theorem createFileAt_liveOk {name : CString} {length : ℕ} (hs : LiveOk s) (hne : name.bytes ≠ [])
    (hl : lookup name s = .ok none) (hr : createFileAt name length s = .ok s') :
    ∃ i o s₁ s₂, RepackFrame s s₁ ∧ Created name.toFileName o (toU32 length) i s₁ s₂ ∧
      LiveOk s' ∧ Kept s₂ s' := by
  obtain ⟨i, o, ho, s₁, s₂, -, -, hframe, hc, h⟩ := createFileAt_steps hs hne hl hr
  refine ⟨i, o, s₁, s₂, hframe, hc, ?_⟩
  rcases h with ⟨-, rfl⟩ | ⟨-, s₃, h3, h4⟩
  · exact ⟨hc.liveOk, Kept.refl _⟩
  · obtain ⟨hs₃, hk₃⟩ := writeNullFile_liveOk hc.liveOk h3
    have hk := Kept.used (toI64 (s₃.used + length)) s₃
    have hframe := hashEither_frame h4
    exact ⟨hframe.liveOk (hs₃.used _), (hk₃.trans hk).trans hframe.kept⟩

end Create

/-- The file is gone from both arrays, its slot is free, its entry has a NUL name. -/
structure Deleted (p : Ptr) (s s' : Filesys) : Prop where
  eq : s' = { s with
    heap := s'.heap, live := s.live.erase p, oList := s'.oList, nList := s'.nList
    used := s.used - (s.heap p).length
    index := s.index.set (s.heap p).index 0, indexCount := s.indexCount - 1
    dir := splice s.dir (metaLen * (s.heap p).index) [0] }
  oList : s'.oList = { s.oList with list := s.oList.list.erase p }
  nList : s'.nList = { s.nList with list := s.nList.list.erase p }
  mem : p ∈ s.oList.list
  same : ∀ q, (s'.heap q).Same (s.heap q)
  dir_le : metaLen * (s.heap p).index + 1 ≤ s.dir.length
  liveOk : LiveOk s'

section Delete

variable {s s' : Filesys} {name : CString} {r : ℤ}

theorem Deleted.shape {p : Ptr} (hd : Deleted p s s') : Shape s s' := by
  rw [hd.eq]
  exact ⟨rfl, length_splice hd.dir_le, rfl, rfl, rfl, rfl⟩

theorem deleteFile_steps (hs : LiveOk s) (hr : deleteFile name s = .ok (r, s')) :
    (r = 1 ∧ s' = s ∧ lookup name s = .ok none) ∨
    (r = 0 ∧ ∃ p, lookup name s = .ok (some p) ∧ Deleted p s s') := by
  rcases deleteFile_post hr with h | ⟨rfl, p, s₁, s₂, hl, h1, h2, hb, rfl⟩
  · exact Or.inl h
  refine Or.inr ⟨rfl, p, hl, ?_⟩
  obtain ⟨hp, -⟩ := hs.lookup hl
  -- the counters do not matter to the arrays
  have ho₀ : ArrOk .offset { s with
      used := s.used - (s.heap p).length
      index := s.index.set (s.heap p).index 0
      indexCount := s.indexCount - 1 } := hs.offsets.congr rfl rfl (fun _ => rfl) rfl
  have hn₀ : ArrOk .name { s with
      used := s.used - (s.heap p).length
      index := s.index.set (s.heap p).index 0
      indexCount := s.indexCount - 1 } := hs.names.congr rfl rfl (fun _ => rfl) rfl
  have ht₁ := takenOut_post ho₀ hp h1
  have hn₁ : ArrOk .name s₁ := by
    obtain ⟨arr, h, rfl, hrem⟩ := removeAt_post (t := .offset) ho₀ hp h1
    have hpos : PosOnly s.oList.type s.heap h := hrem.posOnly
    rw [show s.oList.type = .offset from hs.offsets.type_eq] at hpos
    exact hn₀.of_posOnly (by decide) hpos
  have hp₁ : p ∈ s₁.live := by rw [ht₁.eq]; exact hp
  obtain ⟨arr, h, rfl, hrem⟩ := removeAt_post (t := .name) hn₁ hp₁ h2
  have hpos : PosOnly s₁.nList.type s₁.heap h := hrem.posOnly
  rw [show s₁.nList.type = .name from hn₁.type_eq] at hpos
  have hn₂ := hn₁.removed hrem
  have ho₂ := ht₁.arrOk.of_posOnly (by decide) (a := arr) hpos
  have hs₁n : s₁.nList = s.nList := by rw [ht₁.eq]
  have hs₁l : s₁.live = s.live := by rw [ht₁.eq]
  have hs₁x : s₁.next = s.next := by rw [ht₁.eq]
  have hnl : arr = { s.nList with list := s.nList.list.erase p } := by
    rw [hrem.arr_eq, arr_name, hs₁n]
  have hnd : s₁.live.Nodup := hs₁l ▸ hs.nodup
  have ht₁o : s₁.oList = { s.oList with list := s.oList.list.erase p } := ht₁.oList
  have houtO : p ∉ s₁.oList.list := ht₁.not_mem ho₀
  have houtN : p ∉ arr.list := by
    rw [hnl]
    exact fun hm => (hs.names.nodup.mem_erase_iff.mp hm).1 rfl
  refine ⟨?_, ht₁o, hnl, ht₁.removed.mem, fun q => ?_, ?_, ?_, ?_, ?_, ?_⟩
  · simp only [freeFile, setArr_name_nList, setArr_name_oList, setArr_heap, setArr_dir,
      setArr_live, hs₁l]
    rw [ht₁.eq]
    rfl
  · show (h q).Same (s.heap q)
    exact (hpos.same q).trans (ht₁.posOnly.same q)
  · rw [setArr_dir, ht₁.eq] at hb
    exact hb
  · exact (ho₂.freed hnd houtO).congr rfl rfl (fun _ => rfl) rfl
  · exact (hn₂.freed hnd houtN).congr rfl rfl (fun _ => rfl) rfl
  · show arr.list.Perm (s₁.live.erase p)
    rw [hnl, hs₁l]
    exact hs.perm.erase p
  · intro q hq
    show q < s₁.next
    rw [hs₁x]
    exact hs.fresh q (hs₁l ▸ List.mem_of_mem_erase hq)

/-- A renamed file keeps everything but its name. -/
theorem renamed_liveOk {p : Ptr} (hs : LiveOk s) (new : FileName) (dir : List UInt8) :
    LiveOk { s with heap := s.heap.set p { s.heap p with name := new }, dir := dir } := by
  have hpos : ∀ t q, ((s.heap.set p { s.heap p with name := new }) q).pos t =
      (s.heap q).pos t := by
    intro t q
    by_cases hq : q = p
    · subst hq; rw [Heap.set_self]; cases t <;> rfl
    · rw [Heap.set_of_ne _ _ hq]
  exact ⟨hs.offsets.congr rfl rfl (hpos _) rfl, hs.names.congr rfl rfl (hpos _) rfl,
    hs.perm, hs.fresh⟩

end Delete

end Vfs
