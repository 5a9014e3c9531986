import VirtualFileSystem.Contained
import VirtualFileSystem.Coherence
import VirtualFileSystem.Confidential

/-!
# The functions of the filesystem against a store of byte strings

On a state in order, that represents a store, each function returns the code that the operation on
the store does, and leaves a state that represents the store behind it.
-/

namespace Vfs

open FlatImage Extents ByteStore

/-- The state is in order throughout: arrays, counters, directory, extents, names and hashes. -/
structure Sound (k : ℕ) (s : Filesys) : Prop where
  mirror : Mirror (nameLen - 1) s
  layout : Layout s
  names : NameSorted s.heap s.nList.list
  perfect : Perfect k s
  coherent : Coherent k s

section Steps

variable {k length offset count : ℕ} {s s' : Filesys} {m : Store (List UInt8)} {p : Ptr}
  {name new : CString} {r : ℤ} {buf : List UInt8}

theorem CString.ext_bytes (h : name.bytes = new.bytes) : name = new := by
  cases name
  cases new
  cases h
  rfl

theorem Sound.nameIndex (hs : Sound k s) : NameIndex s := hs.mirror.liveOk.nameIndex hs.names

/-- What the calls know of the sizes. -/
theorem Sound.sizes (hs : Sound k s) (hk : k ≤ 23) (hrep : Represents s m) :
    s.fileDataLen ≤ 2 ^ 31 ∧ 0 ≤ s.used ∧ s.used ≤ s.fileDataLen ∧
      (total m.files.entries : ℤ) = s.used ∧ m.capacity = s.fileDataLen ∧
      s.indexCount = m.files.entries.length ∧ m.maxFiles = s.indexLen := by
  have hfdl := hs.perfect.fileDataLen_le31 hk
  have hle := hs.layout.used_le hs.mirror (by omega)
  have htotal := hrep.total hs.mirror (hs.layout.extentsApart (by omega))
  refine ⟨hfdl, by omega, hle, htotal, hrep.capacity, ?_, hrep.maxFiles⟩
  rw [hs.mirror.counted.count, hrep.count]

/-- A name that is looked up and found stands for the bytes of its file. -/
theorem Sound.found (hs : Sound k s) (hk : k ≤ 23) (hrep : Represents s m)
    (hlen : name.bytes.length < nameLen) (hl : lookup name s = .ok (some p)) :
    p ∈ s.live ∧ (s.heap p).name = name.toFileName ∧
      m.files.entries.Perm (⟨name.bytes, bytesOf s p⟩ :: restOf s p) ∧
      m.files.lookup name.bytes = some (bytesOf s p) ∧
      (bytesOf s p).length = (s.heap p).length := by
  have hfdl := hs.perfect.fileDataLen_le31 hk
  obtain ⟨hp, hn⟩ := hs.mirror.liveOk.lookup hl
  have hperm := hrep.perm hlen hp hn
  exact ⟨hp, hn, hperm, lookup_of_perm hperm,
    bytesOf_length (hs.layout.extentsApart (by omega)) hp⟩

theorem Sound.missing (hs : Sound k s) (hrep : Represents s m) (hne : name.bytes ≠ [])
    (hlen : name.bytes.length < nameLen) (hl : lookup name s = .ok none) :
    m.files.lookup name.bytes = none :=
  hrep.lookup_none hlen ((hs.nameIndex.lookup_eq_none hne).mp hl)

/-- What it takes for the store to hold other bytes under a name. -/
theorem Sound.fits_insert (hs : Sound k s) (hk : k ≤ 23) (hrep : Represents s m)
    (hlen : name.bytes.length < nameLen) (hl : lookup name s = .ok (some p)) (bytes : List UInt8) :
    Store.Fits (m.files.insert name.bytes bytes) m ↔
      s.used + bytes.length ≤ s.fileDataLen + (s.heap p).length := by
  obtain ⟨hfdl, hused0, hused, htotal, hcap, hcount, hmax⟩ := hs.sizes hk hrep
  obtain ⟨hp, hn, hperm, hfound, hbytes⟩ := hs.found hk hrep hlen hl
  have hold := perm_of_lookup hfound
  have h1 := total_perm hold
  have h2 := hold.length_eq
  have hroom := m.room
  unfold Store.Fits
  rw [entries_insert]
  simp only [ByteStore.total_cons, List.length_cons] at h1 h2 ⊢
  omega

/-- The files with one stored anew are those of the store with other bytes under its name. -/
theorem Sound.insert_perm (hs : Sound k s) (hk : k ≤ 23) (hrep : Represents s m)
    (hlen : name.bytes.length < nameLen) (hl : lookup name s = .ok (some p))
    {bytes : List UInt8} (hst : Stored p bytes s s') :
    (contents s').Perm (m.files.insert name.bytes bytes).entries := by
  obtain ⟨hp, hn, hperm, -, -⟩ := hs.found hk hrep hlen hl
  have hstored := hst.contents hs.mirror.liveOk.nodup hp
  rw [hn, toFileName_bytes hlen] at hstored
  rw [entries_insert]
  exact hstored.trans ((erase_perm hperm).symm.cons _)

theorem createFile_represents (hs : Sound k s) (hk : k ≤ 23) (hrep : Represents s m)
    (hne : name.bytes ≠ []) (hlen : name.bytes.length < nameLen) (hsize : length < 2 ^ 32)
    (hsafe : CreatesSafely name length s) (hshape : Shape s s')
    (hr : createFile name length s = .ok (r, s')) :
    r = (m.create name.bytes length).1 ∧ Represents s' (m.create name.bytes length).2 := by
  obtain ⟨hfdl, hused0, hused, htotal, hcap, hcount, hmax⟩ := hs.sizes hk hrep
  have hadm : toU64 (s.used + length) = s.used + length := by
    rw [toU64_of_nonneg (by omega) (by omega)]
    omega
  have hfits : m.files.lookup name.bytes = none →
      (Store.Fits (m.files.insert name.bytes (List.replicate length 0)) m ↔
        s.used + length ≤ s.fileDataLen ∧ s.indexCount < s.indexLen) := by
    intro hmiss
    unfold Store.Fits
    rw [entries_insert, erase_of_lookup_none hmiss]
    simp only [ByteStore.total_cons, List.length_replicate, List.length_cons]
    omega
  unfold Store.create
  rcases createFile_post hr with ⟨rfl, rfl, p, hl⟩ | ⟨rfl, rfl, hl, hfull⟩ | ⟨rfl, hl, hroom, hat⟩
  · obtain ⟨-, -, -, hfound, -⟩ := hs.found hk hrep hlen hl
    rw [hfound]
    exact ⟨rfl, hrep⟩
  · have hmiss := hs.missing hrep hne hlen hl
    rw [hmiss]
    refine hrep.refused 2 fun h => ?_
    have := (hfits hmiss).mp h
    omega
  · have hmiss := hs.missing hrep hne hlen hl
    push Not at hroom
    have hfit : s.used + length ≤ s.fileDataLen := by omega
    have hadded := createFileAt_added hs.mirror hs.layout (by omega) hne hl hsize hfit
      (fun h0 hgap => by
        unfold CreatesSafely at hsafe
        rw [hl, hgap] at hsafe
        exact hsafe h0 hfit hroom.2) hat
    rw [hmiss]
    refine hrep.accepted 2 ((hfits hmiss).mpr ⟨hfit, hroom.2⟩) hshape ?_
    rw [hadded.contents, toFileName_bytes hlen, entries_insert, erase_of_lookup_none hmiss]
    exact hrep.files.cons _

theorem resizeFile_represents (hs : Sound k s) (hk : k ≤ 23) (hrep : Represents s m)
    (hne : name.bytes ≠ []) (hlen : name.bytes.length < nameLen) (hsize : length < 2 ^ 32)
    (hsafe : GrowsSafely name 0 length s) (hshape : Shape s s')
    (hr : resizeFile name length s = .ok (r, s')) :
    r = (m.resize name.bytes length).1 ∧ Represents s' (m.resize name.bytes length).2 := by
  obtain ⟨hfdl, hused0, hused, -⟩ := hs.sizes hk hrep
  unfold Store.resize
  rcases resizeFile_post hr with ⟨rfl, rfl, hl⟩ | ⟨p, hl, hcase⟩
  · rw [hs.missing hrep hne hlen hl]
    exact ⟨rfl, hrep⟩
  obtain ⟨hp, hn, hperm, hfound, hbytes⟩ := hs.found hk hrep hlen hl
  have hfits := hs.fits_insert hk hrep hlen hl
    ((bytesOf s p).take length ++ List.replicate (length - (bytesOf s p).length) 0)
  have hnew : ((bytesOf s p).take length ++
      List.replicate (length - (bytesOf s p).length) (0 : UInt8)).length = length := by
    rw [List.length_append, List.length_take, List.length_replicate]
    omega
  have hle := hs.mirror.length_le_used hp
  have hadm : toU64 (s.used + length - (s.heap p).length) =
      s.used + length - (s.heap p).length := by
    rw [toU64_of_nonneg (by omega) (by omega)]
    omega
  rw [hnew] at hfits
  rw [hfound]
  rcases hcase with ⟨rfl, rfl, hfull⟩ | ⟨rfl, hroom, hcase⟩
  · exact hrep.refused 2 fun h => by
      have := hfits.mp h
      omega
  · have hfit : s.used + length ≤ s.fileDataLen + (s.heap p).length := by omega
    refine hrep.accepted 2 (hfits.mpr hfit) hshape (hs.insert_perm hk hrep hlen hl ?_)
    rw [hbytes]
    rcases hcase with ⟨rfl, rfl⟩ | ⟨hdiff, hat⟩
    · -- nothing to do
      rw [Nat.sub_self, List.replicate_zero, List.append_nil, List.take_of_length_le hbytes.le]
      exact stored_nothing hbytes
    · refine (resizeFileAt_stored (Nat.sub_le _ _) hs.mirror hs.layout (by omega) hp hsize hdiff
        hfit (fun hgrow => ?_) hat).1
      unfold GrowsSafely at hsafe
      rw [hl] at hsafe
      exact (hsafe (Nat.zero_le _) hgrow hfit).growClear

theorem writeFile_represents (hs : Sound k s) (hk : k ≤ 23) (hrep : Represents s m)
    (hne : name.bytes ≠ []) (hlen : name.bytes.length < nameLen) (hoff32 : offset < 2 ^ 32)
    (hcount32 : count < 2 ^ 32) (hbuf : count ≤ buf.length)
    (hsafe : GrowsSafely name offset (offset + count) s) (hshape : Shape s s')
    (hr : writeFile name offset count buf s = .ok (r, s')) :
    r = (m.write name.bytes offset (buf.take count)).1 ∧
      Represents s' (m.write name.bytes offset (buf.take count)).2 := by
  obtain ⟨hfdl, hused0, hused, -⟩ := hs.sizes hk hrep
  unfold Store.write
  rcases writeFile_post hr with ⟨rfl, rfl, hl⟩ | ⟨p, hl, hcase⟩
  · rw [hs.missing hrep hne hlen hl]
    exact ⟨rfl, hrep⟩
  obtain ⟨hp, hn, hperm, hfound, hbytes⟩ := hs.found hk hrep hlen hl
  obtain ⟨data, hdata⟩ : ∃ data : List UInt8, data = buf.take count := ⟨_, rfl⟩
  have hlength : data.length = count := by
    rw [hdata]
    exact List.length_take_of_le hbuf
  have hle := hs.mirror.length_le_used hp
  have hadm : toU64 (s.used + offset + count - (s.heap p).length) =
      s.used + offset + count - (s.heap p).length := by
    rw [toU64_of_nonneg (by omega) (by omega)]
    omega
  rw [hfound, ← hdata]
  dsimp only
  rw [hbytes]
  rcases hcase with ⟨rfl, rfl, hgt⟩ | ⟨rfl, rfl, hoff, hfull⟩ | ⟨rfl, hoff, hroom, hcase⟩
  · rw [if_pos hgt]
    exact ⟨rfl, hrep⟩
  · rw [if_neg (by omega)]
    have hfits := hs.fits_insert hk hrep hlen hl (splice (bytesOf s' p) offset data)
    refine hrep.refused 3 fun h => ?_
    have := hfits.mp h
    unfold splice at this
    simp only [List.length_append, List.length_take, List.length_drop] at this
    omega
  · rw [if_neg (by omega)]
    have hfits := hs.fits_insert hk hrep hlen hl (splice (bytesOf s p) offset data)
    refine hrep.accepted 3 (hfits.mpr ?_) hshape (hs.insert_perm hk hrep hlen hl ?_)
    · unfold splice
      simp only [List.length_append, List.length_take, List.length_drop]
      omega
    rcases hcase with ⟨rfl, rfl⟩ | ⟨hpos, hat⟩
    · -- nothing to write
      obtain rfl : data = [] := List.length_eq_zero_iff.mp hlength
      rw [splice_nil]
      exact stored_nothing hbytes
    · have hfit : s.used + (offset + data.length : ℕ) ≤ s.fileDataLen + (s.heap p).length := by
        omega
      have hsum := hs.mirror.length_le hp hfit
      rw [← writeFileAt_take hbuf, ← hdata, ← hlength] at hat
      refine (writeFileAt_bytes (Nat.sub_le _ _) hs.mirror hs.layout (by omega) hp (by omega)
        (by omega) (by omega) hfit (fun hgrow => ?_) hat).1
      unfold GrowsSafely at hsafe
      rw [hl, ← hlength] at hsafe
      exact (hsafe (by omega) hgrow hfit).growClear

theorem deleteFile_represents (hs : Sound k s) (hk : k ≤ 23) (hrep : Represents s m)
    (hne : name.bytes ≠ []) (hlen : name.bytes.length < nameLen) (hshape : Shape s s')
    (hr : deleteFile name s = .ok (r, s')) :
    r = (m.delete name.bytes).1 ∧ Represents s' (m.delete name.bytes).2 := by
  unfold Store.delete
  rcases deleteFile_steps hs.mirror.liveOk hr with ⟨rfl, rfl, hl⟩ | ⟨rfl, p, hl, hd⟩
  · rw [hs.missing hrep hne hlen hl]
    exact ⟨rfl, hrep⟩
  · obtain ⟨-, -, hperm, hfound, -⟩ := hs.found hk hrep hlen hl
    rw [hfound]
    refine ⟨rfl, ?_, hrep.capacity.trans hshape.file.symm, hrep.maxFiles.trans hshape.indexLen.symm⟩
    rw [hd.contents]
    exact (erase_perm hperm).symm

theorem renameFile_represents (hs : Sound k s) (hk : k ≤ 23) (hrep : Represents s m)
    (hne : name.bytes ≠ []) (hlen : name.bytes.length < nameLen) (hnew : new.bytes ≠ [])
    (hnlen : new.bytes.length < nameLen) (hshape : Shape s s')
    (hr : renameFile name new s = .ok (r, s')) :
    r = (m.rename name.bytes new.bytes).1 ∧
      Represents s' (m.rename name.bytes new.bytes).2 := by
  have heq : name.bytes = new.bytes ↔ name = new :=
    ⟨CString.ext_bytes, fun h => congrArg CString.bytes h⟩
  unfold Store.rename
  rcases renameFile_post hr with
    ⟨rfl, ⟨rfl, hl⟩ | ⟨p, hl, ⟨rfl, he⟩ | ⟨rfl, he, q, hq⟩⟩⟩ | ⟨rfl, he, p, hl, hq, -, hs'⟩
  · rw [hs.missing hrep hne hlen hl]
    exact ⟨rfl, hrep⟩
  · obtain ⟨-, -, -, hfound, -⟩ := hs.found hk hrep hlen hl
    rw [hfound]
    dsimp only
    rw [if_pos (heq.mpr he)]
    exact ⟨rfl, hrep⟩
  · obtain ⟨-, -, -, hfound, -⟩ := hs.found hk hrep hlen hl
    obtain ⟨-, -, -, hfound', -⟩ := hs.found hk hrep hnlen hq
    rw [hfound]
    dsimp only
    rw [if_neg fun h => he (heq.mp h), hfound']
    exact ⟨rfl, hrep⟩
  · obtain ⟨hp, hn, hperm, hfound, -⟩ := hs.found hk hrep hlen hl
    have hfree := hs.missing hrep hnew hnlen hq
    rw [hfound]
    dsimp only
    rw [if_neg fun h => he (heq.mp h), hfree]
    obtain ⟨htotal, hcount⟩ := move_bounds hfound hfree
    have hfits : Store.Fits ((m.files.erase name.bytes).insert new.bytes (bytesOf s p)) m :=
      ⟨htotal.trans_le m.fits, hcount.trans_le m.room⟩
    refine hrep.accepted 1 hfits hshape ?_
    have hrest : ((m.files.erase name.bytes).erase new.bytes).entries.Perm (restOf s p) := by
      refine (List.Perm.of_eq (erase_of_lookup_none ?_)).trans (erase_perm hperm)
      rw [AList.lookup_erase_ne fun h => he (heq.mp h.symm)]
      exact hfree
    have hmoved := renamed_contents hs.mirror.liveOk.nodup hp new.toFileName
      (splice s.dir (metaLen * (s.heap p).index) (new.toFileName.bytes ++ [0]))
    rw [toFileName_bytes hnlen] at hmoved
    rw [hs', entries_insert]
    exact hmoved.trans (hrest.symm.cons _)

theorem repack_represents (hs : Sound k s) (hk : k ≤ 23) (hrep : Represents s m)
    (hroomy : Roomy 0 (exts s.heap s.oList.list)) (hshape : Shape s s')
    (hr : repack s = .ok s') : Represents s' m := by
  have hfdl := hs.perfect.fileDataLen_le31 hk
  have harr := (hs.layout.searchable hs.mirror (by omega)).arranged
  obtain ⟨ho, s₁, h1, hframe⟩ := repack_frame hr
  have hmoved := repackHelper_frame h1
  obtain ⟨hheap, hfile⟩ := hframe.heap_file
  have hsame : ∀ p ∈ s.live, named s' p = named s p := by
    intro p hp
    have hbytes := repackHelper_bytesOf harr hroomy h1 (hs.layout.perm.mem_iff.mpr hp)
    unfold named
    rw [bytesOf_congr hfile (by rw [hheap]) (by rw [hheap]), hbytes, hheap,
      hmoved.offsetOnly.name]
  have hlive : s'.live = s.live := by
    rw [hframe.eq, hmoved.eq]
  refine ⟨?_, hrep.capacity.trans hshape.file.symm, hrep.maxFiles.trans hshape.indexLen.symm⟩
  rw [contents_congr hlive hsame]
  exact hrep.files

theorem readFile_represents (hs : Sound k s) (hk : k ≤ 23) (hrep : Represents s m)
    (hne : name.bytes ≠ []) (hlen : name.bytes.length < nameLen) (hoff : offset < 2 ^ 32)
    (hcount : count < 2 ^ 32) :
    readFile name offset count s = .ok (m.read name.bytes offset count) := by
  obtain ⟨hfdl, -⟩ := hs.sizes hk hrep
  unfold Store.read
  obtain ⟨q, hl⟩ := lookup_total name s
  cases q with
  | none =>
    rw [hs.missing hrep hne hlen hl]
    unfold readFile
    rw [hl]
    rfl
  | some p =>
    obtain ⟨hp, -, -, hfound, hbytes⟩ := hs.found hk hrep hlen hl
    have hsum : (offset + count) % 2 ^ 64 = offset + count := Nat.mod_eq_of_lt (by omega)
    have hfits : ReadFits offset count p s := by
      unfold ReadFits
      rw [hsum]
      rcases Nat.lt_or_ge (s.heap p).length (offset + count) with hgt | hle
      · exact Or.inl hgt
      · refine Or.inr ⟨by omega, or_iff_not_imp_left.mpr fun hpos => ?_⟩
        have := (hs.layout.inRange (by omega) p hp).2 (by omega)
        omega
    rw [readFile_fits hs.mirror hs.layout hs.perfect (by omega) hs.coherent hl hfits, hfound]
    dsimp only
    rw [hsum, hbytes]
    split_ifs <;> rfl

theorem fileSize_represents (hs : Sound k s) (hk : k ≤ 23) (hrep : Represents s m)
    (hne : name.bytes ≠ []) (hlen : name.bytes.length < nameLen) :
    fileSize name s = .ok (m.size name.bytes) := by
  unfold Store.size fileSize
  obtain ⟨q, hl⟩ := lookup_total name s
  rw [hl, Run.ok_bind]
  cases q with
  | none =>
    rw [hs.missing hrep hne hlen hl]
    rfl
  | some p =>
    obtain ⟨-, -, -, hfound, hbytes⟩ := hs.found hk hrep hlen hl
    rw [hfound]
    dsimp only
    rw [hbytes]
    rfl

end Steps

end Vfs
