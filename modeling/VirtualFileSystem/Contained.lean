import VirtualFileSystem.Lib.ByteStore
import VirtualFileSystem.Creation

/-!
# The files as a map from names to byte strings

What a caller can see of a filesystem: the names of the live files and the bytes under each.  Every
step either leaves this map alone, or changes it at one name.
-/

namespace Vfs

open FlatImage ByteStore

/-- The name of a file and its bytes. -/
def named (s : Filesys) (p : Ptr) : Σ _ : List UInt8, List UInt8 :=
  ⟨(s.heap p).name.bytes, bytesOf s p⟩

/-- All names with their bytes. -/
def contents (s : Filesys) : List (Σ _ : List UInt8, List UInt8) := s.live.map (named s)

/-- The names and bytes of the files without `p`. -/
def restOf (s : Filesys) (p : Ptr) : List (Σ _ : List UInt8, List UInt8) :=
  (s.live.erase p).map (named s)

/-- The store holds the files, and its bounds are those of the filesystem. -/
structure Represents (s : Filesys) (m : Store (List UInt8)) : Prop where
  files : (contents s).Perm m.files.entries
  capacity : m.capacity = s.fileDataLen
  maxFiles : m.maxFiles = s.indexLen

section Contents

variable {w : ℕ} {s s' : Filesys} {m : Store (List UInt8)} {p : Ptr} {name : CString}
  {bytes : List UInt8}

theorem contents_perm (hp : p ∈ s.live) : (contents s).Perm (named s p :: restOf s p) :=
  (List.perm_cons_erase hp).map _

theorem contents_congr (hlive : s'.live = s.live) (h : ∀ p ∈ s.live, named s' p = named s p) :
    contents s' = contents s := by
  unfold contents
  rw [hlive]
  exact List.map_congr_left h

theorem restOf_congr (hnd : s.live.Nodup) (hlive : s'.live = s.live)
    (h : ∀ q ∈ s.live, q ≠ p → named s' q = named s q) : restOf s' p = restOf s p := by
  unfold restOf
  rw [hlive]
  refine List.map_congr_left fun q hq => ?_
  obtain ⟨hqp, hq⟩ := hnd.mem_erase_iff.mp hq
  exact h q hq hqp

/-- A file stored anew is the only one whose bytes change. -/
theorem Stored.contents (hst : Stored p bytes s s') (hnd : s.live.Nodup) (hp : p ∈ s.live) :
    (Vfs.contents s').Perm (⟨(s.heap p).name.bytes, bytes⟩ :: restOf s p) := by
  have hself : named s' p = ⟨(s.heap p).name.bytes, bytes⟩ := by
    unfold named
    rw [hst.name, hst.self]
  have hrest : restOf s' p = restOf s p := by
    refine restOf_congr hnd hst.live fun q hq hqp => ?_
    unfold named
    rw [hst.name, hst.others q hq hqp]
  rw [← hself, ← hrest]
  exact contents_perm (hst.live ▸ hp)

theorem Added.contents {n : FileName} {length : ℕ} (ha : Added n length s s') :
    Vfs.contents s' = ⟨n.bytes, zeros length⟩ :: Vfs.contents s := by
  obtain ⟨p, -, hlive, hname, -, hbytes⟩ := ha.new
  have hself : named s' p = ⟨n.bytes, zeros length⟩ := by
    unfold named
    rw [hname, hbytes]
  unfold Vfs.contents
  rw [hlive, List.map_cons, hself]
  congr 1
  refine List.map_congr_left fun q hq => ?_
  unfold named
  rw [ha.name q hq, ha.bytes q hq]

theorem Deleted.contents (hd : Deleted p s s') : Vfs.contents s' = restOf s p := by
  have hlive : s'.live = s.live.erase p := by rw [hd.eq]
  have hfile : s'.file = s.file := by rw [hd.eq]
  unfold Vfs.contents restOf
  rw [hlive]
  refine List.map_congr_left fun q _ => ?_
  have hsame := hd.same q
  unfold named
  rw [bytesOf_congr hfile hsame.2.1 hsame.2.2.1, hsame.1]

theorem renamed_contents (hnd : s.live.Nodup) (hp : p ∈ s.live) (new : FileName)
    (dir : List UInt8) : (Vfs.contents { s with
      heap := s.heap.set p { s.heap p with name := new }, dir := dir }).Perm
        (⟨new.bytes, bytesOf s p⟩ :: restOf s p) := by
  obtain ⟨t, ht⟩ : ∃ t : Filesys, t = { s with
      heap := s.heap.set p { s.heap p with name := new }, dir := dir } := ⟨_, rfl⟩
  have hlive : t.live = s.live := by rw [ht]
  have hself : named t p = ⟨new.bytes, bytesOf s p⟩ := by
    rw [ht]
    unfold named bytesOf
    simp only [Heap.set_self]
  have hrest : restOf t p = restOf s p := by
    refine restOf_congr hnd hlive fun q _ hqp => ?_
    rw [ht]
    unfold named bytesOf
    simp only [Heap.set_of_ne _ _ hqp]
  rw [← ht, ← hself, ← hrest]
  exact contents_perm (hlive ▸ hp)

/-! ## Sizes and names -/

theorem total_contents (hm : Mirror w s) (hx : ExtentsApart s) :
    (total (contents s) : ℤ) = s.used := by
  rw [hm.counted.used]
  unfold total contents totalLength
  rw [List.map_map]
  congr 2
  exact List.map_congr_left fun p hp => bytesOf_length hx hp

theorem Represents.total (h : Represents s m) (hm : Mirror w s) (hx : ExtentsApart s) :
    (ByteStore.total m.files.entries : ℤ) = s.used := by
  rw [← total_perm h.files]
  exact total_contents hm hx

theorem Represents.count (h : Represents s m) : m.files.entries.length = s.live.length := by
  rw [← h.files.length_eq]
  exact List.length_map _

/-- A string that fits a name field is the name it becomes. -/
theorem toFileName_bytes (hlen : name.bytes.length < nameLen) :
    name.toFileName.bytes = name.bytes := by
  show name.bytes.take (nameLen - 1) = _
  exact List.take_of_length_le (by omega)

theorem Represents.perm (h : Represents s m) (hlen : name.bytes.length < nameLen)
    (hp : p ∈ s.live) (hn : (s.heap p).name = name.toFileName) :
    m.files.entries.Perm (⟨name.bytes, bytesOf s p⟩ :: restOf s p) := by
  have hself : named s p = ⟨name.bytes, bytesOf s p⟩ := by
    unfold named
    rw [hn, toFileName_bytes hlen]
  rw [← hself]
  exact h.files.symm.trans (contents_perm hp)

theorem Represents.lookup_none (h : Represents s m) (hlen : name.bytes.length < nameLen)
    (hn : ∀ p ∈ s.live, (s.heap p).name ≠ name.toFileName) :
    m.files.lookup name.bytes = none := by
  cases hl : m.files.lookup name.bytes with
  | none => rfl
  | some bytes =>
    have hmem := h.files.mem_iff.mpr (AList.mem_lookup_iff.mp hl)
    obtain ⟨p, hp, he⟩ := List.mem_map.mp hmem
    have hname : (s.heap p).name.bytes = name.bytes := congrArg Sigma.fst he
    exact absurd (FileName.ext (hname.trans (toFileName_bytes hlen).symm)) (hn p hp)

/-- Files that fit are taken over by a state of the same shape that holds them. -/
theorem Represents.accepted {files : AList fun _ : List UInt8 => List UInt8} (refusal : ℤ)
    (h : Represents s m) (hfits : Store.Fits files m) (hshape : Shape s s')
    (hfiles : (contents s').Perm files.entries) :
    0 = (m.replaceBy files refusal).1 ∧ Represents s' (m.replaceBy files refusal).2 := by
  unfold Store.replaceBy
  rw [dif_pos hfits]
  exact ⟨rfl, hfiles, h.capacity.trans hshape.file.symm, h.maxFiles.trans hshape.indexLen.symm⟩

theorem Represents.refused {files : AList fun _ : List UInt8 => List UInt8} (refusal : ℤ)
    (h : Represents s m) (hfits : ¬ Store.Fits files m) :
    refusal = (m.replaceBy files refusal).1 ∧ Represents s (m.replaceBy files refusal).2 := by
  unfold Store.replaceBy
  rw [dif_neg hfits]
  exact ⟨rfl, h⟩

end Contents

end Vfs
