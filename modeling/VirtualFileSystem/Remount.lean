import VirtualFileSystem.Gapless
import VirtualFileSystem.Close

/-!
# Closing and mounting again

The mappings are shared, so what `close_fs` leaves on disk are the bytes of the three images.  The
images of a state in order describe its files, and mounting them gives a state in order with the
same files, without gaps if there were none.
-/

namespace Vfs

open FlatImage Extents ByteStore

/-! ## What the images describe -/

/-- The file an entry of the directory describes. -/
def entryFile (file : List UInt8) (e : List UInt8) : Σ _ : List UInt8, List UInt8 :=
  ⟨entryName (nameLen - 1) e, slice file (entryOffset e) (entryLength e)⟩

/-- The files that `n` entries of the directory describe. -/
def imageFiles (n : ℕ) (file dir : List UInt8) : List (Σ _ : List UInt8, List UInt8) :=
  ((List.range n).filter fun i => Used (entry dir i)).map fun i => entryFile file (entry dir i)

/-- Every entry in use describes one live file, and every live file is described. -/
structure Pictured (s : Filesys) : Prop where
  nodup : s.live.Nodup
  bound : ∀ p ∈ s.live, (s.heap p).index < s.indexLen
  inj : ∀ p ∈ s.live, ∀ q ∈ s.live, (s.heap p).index = (s.heap q).index → p = q
  used : ∀ p ∈ s.live, Used (entry s.dir (s.heap p).index)
  loaded : ∀ i < s.indexLen, Used (entry s.dir i) → ∃ p ∈ s.live, (s.heap p).index = i
  file : ∀ p ∈ s.live, named s p = entryFile s.file (entry s.dir (s.heap p).index)

section Images

variable {k n : ℕ} {s s' : Filesys} {p : Ptr} {c : Call} {a : Answer} {file dir hash : List UInt8}

theorem Pictured.contents_perm (h : Pictured s) :
    (contents s).Perm (imageFiles s.indexLen s.file s.dir) := by
  have hindex : (s.live.map fun p => (s.heap p).index).Perm
      ((List.range s.indexLen).filter fun i => Used (entry s.dir i)) := by
    refine (List.perm_ext_iff_of_nodup (h.nodup.map_on h.inj)
      (List.nodup_range.filter _)).mpr fun i => ?_
    rw [List.mem_map, List.mem_filter, List.mem_range, decide_eq_true_iff]
    constructor
    · rintro ⟨p, hp, rfl⟩
      exact ⟨h.bound p hp, h.used p hp⟩
    · exact fun hi => h.loaded i hi.1 hi.2
  have hmap : contents s = (s.live.map fun p => (s.heap p).index).map
      fun i => entryFile s.file (entry s.dir i) := by
    unfold contents
    rw [List.map_map]
    exact List.map_congr_left h.file
  rw [hmap]
  exact hindex.map _

theorem entryFile_of {e : List UInt8} (hn : (s.heap p).name.bytes = entryName (nameLen - 1) e)
    (hl : (s.heap p).length = entryLength e)
    (ho : (s.heap p).length ≠ 0 → (s.heap p).offset = entryOffset e) :
    named s p = entryFile s.file e := by
  unfold named entryFile bytesOf
  rw [hn, hl]
  by_cases h0 : (s.heap p).length = 0
  · rw [← hl, h0, slice_zero, slice_zero]
  · rw [ho h0]

theorem Scanned.pictured (hs : Scanned s.indexLen s) : Pictured s where
  nodup := hs.nodup
  bound := hs.bound
  inj := hs.inj
  used := fun p hp => (hs.record p hp).used
  loaded := hs.loaded
  file := fun p hp => by
    have hrec := hs.record p hp
    refine entryFile_of ?_ hrec.length fun h0 => ?_
    · rw [hrec.name, loadName_bytes]
    · rw [hrec.length] at h0
      rw [hrec.offset]
      unfold loadOffset
      rw [if_neg h0]

/-- The files are those the images describe, valid or not. -/
theorem initFs_contents (hr : initFs file dir hash = .ok s) :
    (contents s).Perm (imageFiles s.indexLen file dir) := by
  obtain ⟨hs, hfile, hdir, -⟩ := initFs_scanned hr
  rw [← hfile, ← hdir]
  exact hs.pictured.contents_perm

theorem Described.pictured (hs : Described (nameLen - 1) s) : Pictured s where
  nodup := hs.nodup
  bound := hs.bound
  inj := hs.inj
  used := fun p hp => hs.used_of_live le_rfl hp
  loaded := fun i hi hu => hs.live_of_used hi hu
  file := fun p hp => by
    obtain ⟨hn, hl, ho⟩ := hs.decodes p hp
    exact entryFile_of hn.symm hl.symm fun h0 => (ho h0).symm

/-! ## States that can be mounted -/

/-- The directory has as many entries as its table has room for, and every file has a name. -/
structure Mountable (s : Filesys) : Prop where
  dir : s.dir ≠ []
  indexLen : s.indexLen = s.dir.length / metaLen
  named : ∀ p ∈ s.live, (s.heap p).name.bytes ≠ []

theorem Mountable.of_shape (h : Mountable s) (hsh : Shape s s')
    (hn : ∀ p ∈ s'.live, (s'.heap p).name.bytes ≠ []) : Mountable s' where
  dir := fun h0 => h.dir (List.length_eq_zero_iff.mp (by rw [← hsh.dir, h0]; rfl))
  indexLen := by rw [hsh.indexLen, hsh.dir, h.indexLen]
  named := hn

theorem Mountable.kept (h : Mountable s) (hk : Kept s s') : Mountable s' :=
  h.of_shape hk.shape fun p hp => by
    rw [hk.name]
    exact h.named p (hk.live ▸ hp)

/-- One step lemma for all calls: files keep names. -/
theorem exec_mountable (hs : LiveOk s) (hc : c.Named) (hm : Mountable s)
    (hr : exec c s = .ok (a, s')) : Mountable s' := by
  cases exec_effect hs hr with
  | idle => exact hm
  | @create name length _ _ hl hroom hat =>
    have hne := hc name (by simp [Call.names])
    obtain ⟨i, o, s₁, s₂, hf, hcr, -, hk⟩ := createFileAt_liveOk hs hne hl hat
    obtain ⟨s₃, hreg, he⟩ := hcr.registered
    have hm₁ := hm.kept hf.kept
    refine (hm₁.of_shape hcr.shape fun p hp => ?_).kept hk
    have hheap : s₂.heap = s₃.heap := by rw [he]
    have hlive : s₂.live = s₃.live := by rw [he]
    rw [hlive, hreg.live] at hp
    rw [hheap]
    rcases List.mem_cons.mp hp with rfl | hp
    · rw [hreg.new.1]
      exact toFileName_ne_nil hne
    · rw [(hreg.old p ((hf.liveOk hs).fresh p hp).ne).1]
      exact hm₁.named p hp
  | resize hl hadm hat => exact hm.kept (resizeFileAt_liveOk hs (hs.lookup hl).1 hat).2
  | write hl hoff hadm hat => exact hm.kept (writeFileAt_liveOk hs (hs.lookup hl).1 hat).2
  | @delete name q _ _ hl hd =>
    refine hm.of_shape hd.shape fun p hp => ?_
    have hlive : s'.live = s.live.erase q := by rw [hd.eq]
    rw [(hd.same p).1]
    exact hm.named p (List.mem_of_mem_erase (hlive ▸ hp))
  | @rename old new q _ hl hnew hb =>
    refine hm.of_shape ⟨rfl, length_splice (by simpa using hb), rfl, rfl, rfl, rfl⟩ fun p hp => ?_
    by_cases hpq : p = q
    · rw [hpq]
      show (s.heap.set q _ q).name.bytes ≠ []
      rw [Heap.set_self]
      exact toFileName_ne_nil (hc new (by simp [Call.names]))
    · show (s.heap.set q _ p).name.bytes ≠ []
      rw [Heap.set_of_ne _ _ hpq]
      exact hm.named p hp
  | repack hat => exact hm.kept (repack_liveOk hs hat).2

/-- A state in order is described by its images. -/
theorem Healthy.described (hs : Healthy k s) (hk : k ≤ 23) (hm : Mountable s) :
    Described (nameLen - 1) s where
  images := by
    have hpf := hs.sound.perfect
    refine ⟨fun h0 => ?_, hm.dir, fun h0 => ?_⟩
    · have hlen := hpf.file
      have := Nat.two_pow_pos k
      rw [h0] at hlen
      unfold blockLen at hlen
      simp only [List.length_nil] at hlen
      omega
    · have hlen := hpf.hash
      have := Nat.two_pow_pos k
      rw [h0, Nat.pow_succ] at hlen
      unfold hashLen at hlen
      simp only [List.length_nil] at hlen
      omega
  indexLen := ⟨hm.indexLen, hs.sound.mirror.counted.indexLen_le⟩
  nodup := hs.sound.mirror.liveOk.nodup
  named := hm.named
  distinct := fun p hp q hq hn => by
    -- the search for the name finds both
    obtain ⟨r, -, hr⟩ := hs.sound.nameIndex.search (s.heap p) (hm.named p hp)
    exact Option.some_inj.mp (((hr p).mpr ⟨hp, rfl⟩).symm.trans ((hr q).mpr ⟨hq, hn.symm⟩))
  disjoint := fun p hp q hq hpq h0 h1 => by
    have hL := hs.sound.layout
    exact hL.lined.apart (hL.mem hp) (hL.mem hq) hpq (Nat.pos_of_ne_zero h0)
      (Nat.pos_of_ne_zero h1)
  bound := hs.sound.mirror.dir.bound
  inj := hs.sound.mirror.dir.inj
  decodes := fun p hp => by
    have hentry := hs.sound.mirror.dir.entry p hp
    refine ⟨hentry.name, hentry.length, fun h0 => hentry.offset ?_⟩
    have hfdl := hs.sound.perfect.fileDataLen_le31 hk
    rcases hs.sound.layout.range p hp with ⟨-, h⟩ | h
    · exact absurd h h0
    · unfold maxFileDataLen
      omega
  free := hs.sound.mirror.dir.free
  index_length := hs.sound.mirror.counted.index_length
  slot := fun i hi => by
    rcases hs.sound.mirror.counted.slot i hi with ⟨h1, h2⟩ | ⟨h1, h2⟩
    · rw [h1, if_pos h2]
    · rw [h1, if_neg]
      rintro ⟨p, hp, he⟩
      exact h2 p hp he
  count := hs.sound.mirror.counted.count
  used := hs.sound.mirror.counted.used

/-- A state in order leaves a valid directory. -/
theorem Healthy.directoryValid (hs : Healthy k s) (hk : k ≤ 23) (hm : Mountable s) :
    DirectoryValid s.indexLen s.dir s.file.length where
  names := ((hs.described hk hm).dirOk ⟨le_rfl, by decide⟩).distinct
  inside := fun i hi hu h0 => by
    have hd := hs.described hk hm
    obtain ⟨p, hp, rfl⟩ := hd.live_of_used hi hu
    obtain ⟨-, hl, ho⟩ := hd.decodes p hp
    rw [hl] at h0 ⊢
    rw [ho h0]
    rcases hs.sound.layout.range p hp with ⟨-, h⟩ | h
    · exact absurd h h0
    · exact h
  disjoint := (hs.described hk hm).extentsDisjoint

/-! ## Mounting again -/

theorem entryName_of_used {e : List UInt8} (hu : Used e) : entryName (nameLen - 1) e ≠ [] := by
  cases e with
  | nil => exact absurd rfl hu
  | cons b bs =>
    have hb : b ≠ 0 := hu
    unfold entryName nameLen
    rw [List.take_succ_cons, List.takeWhile_cons_of_pos (by simpa using hb)]
    exact List.cons_ne_nil _ _

/-- What `init_fs` builds can be mounted again. -/
theorem initFs_mountable (hr : initFs file dir hash = .ok s)
    (hle : dir.length / metaLen ≤ maxNumFiles) : Mountable s := by
  obtain ⟨hs, -, hdir, -, -⟩ := initFs_scanned hr
  refine ⟨?_, ?_, fun p hp => ?_⟩
  · rw [hdir]
    exact (initFs_accepts_iff.mp ⟨s, hr⟩).1.2.1
  · rw [hdir]
    exact initFs_indexLen hr hle
  · have hrec := hs.record p hp
    rw [hrec.name, loadName_bytes]
    exact entryName_of_used hrec.used

/-- `init_fs` completes on images with a table of a size it handles. -/
theorem initFs_completes (hne : file ≠ [] ∧ dir ≠ [] ∧ hash ≠ [])
    (hle : dir.length / metaLen ≤ maxNumFiles) :
    ∃ s, initFs file dir hash = .ok s ∧ s.indexLen = dir.length / metaLen := by
  have h32 : ∀ m : ℕ, m ≤ maxNumFiles → toI32 m = m := fun m hm => by
    unfold maxNumFiles at hm
    exact toI32_of_bounds (by omega) (by omega)
  have hle' : ((dir.length / metaLen : ℕ) : ℤ) ≤ (maxNumFiles : ℕ) := Int.ofNat_le.mpr hle
  obtain ⟨s, hr⟩ := initFs_accepts_iff.mpr
    ⟨hne, by rw [h32 _ hle]; exact Int.natCast_nonneg _, by rw [h32 _ hle]; exact hle'⟩
  exact ⟨s, hr, initFs_indexLen hr hle⟩

/-- The filesystem on other states of the same images, with the same files. -/
structure Remounted (k : ℕ) (s s' : Filesys) : Prop where
  images : s'.file = s.file ∧ s'.dir = s.dir ∧ s'.hash = s.hash
  indexLen : s'.indexLen = s.indexLen
  healthy : Healthy k s'
  mountable : Mountable s'
  contents : (contents s').Perm (contents s)
  used : s'.used = s.used
  gapless : Gapless s → Gapless s'

/-- `close_fs`, and `init_fs` on the images it leaves. -/
def remount (s : Filesys) : Run Filesys := do
  let _ ← closeFs (some s)
  initFs s.file s.dir s.hash

theorem Healthy.remount (hs : Healthy k s) (hk : k ≤ 23) (hm : Mountable s) :
    ∃ s', remount s = .ok s' ∧ Remounted k s s' := by
  have hd := hs.described hk hm
  have hfdl := hs.sound.perfect.fileDataLen_le31 hk
  have hle : s.dir.length / metaLen ≤ maxNumFiles := hm.indexLen ▸ hd.indexLen.2
  obtain ⟨s', hr, hlen⟩ := initFs_completes hd.images hle
  obtain ⟨hscan, hfile, hdir, hhash, -⟩ := initFs_scanned hr
  have hlen' : s'.indexLen = s.indexLen := hlen.trans hm.indexLen.symm
  have hw : WellFormed s' :=
    (initFs_wellFormed_iff hr).mpr (by rw [hlen']; exact hs.directoryValid hk hm)
  have hpf := initFs_perfect (k := k) (by omega) hs.sound.perfect.file hs.sound.perfect.hash hr
  have hfdl' := hpf.fileDataLen_le31 hk
  have hcontents : (Vfs.contents s').Perm (Vfs.contents s) := by
    refine (initFs_contents hr).trans ?_
    rw [hlen']
    exact hd.pictured.contents_perm.symm
  have hused : s'.used = s.used := by
    rw [← total_contents hw.mirror (hw.layout.extentsApart (by omega)), total_perm hcontents,
      total_contents hs.sound.mirror (hs.sound.layout.extentsApart (by omega))]
  refine ⟨s', ?_, ⟨hfile, hdir, hhash⟩, hlen', ⟨⟨hw.mirror, hw.layout, hw.names, hpf, ?_⟩,
    hw.sentinel⟩, initFs_mountable hr hle, hcontents, hused, fun hg p hp h0 => ?_⟩
  · unfold Vfs.remount
    rw [closeFs_layout hs.sound.mirror.liveOk hs.sound.layout]
    exact hr
  · exact hs.sound.coherent.congr (fun b => block_of_file hfile b) hhash
  · -- the file was there before, at the same place
    have hrec := hscan.record p hp
    rw [hdir] at hrec
    obtain ⟨q, hq, hidx⟩ := hd.live_of_used (hlen' ▸ hscan.bound p hp) hrec.used
    obtain ⟨-, hl, ho⟩ := hd.decodes q hq
    rw [hidx] at hl ho
    rw [hrec.length] at h0
    have hoff := hrec.offset
    unfold loadOffset at hoff
    rw [if_neg h0.ne'] at hoff
    have hq0 : 0 < (s.heap q).length := hl ▸ h0
    rw [hoff, hrec.length, hused, hl, ho hq0.ne']
    exact hg q hq hq0

/-- **Mounting.**  `init_fs` accepts any three images that are not empty and whose number of
directory entries, in 32 bits, is one the arrays can hold.  The state has the files that the entries
describe, valid or not, and is well formed exactly if the directory is valid. -/
theorem initFs_exact (file dir hash : List UInt8) :
    ((∃ s, initFs file dir hash = .ok s) ↔
      (file ≠ [] ∧ dir ≠ [] ∧ hash ≠ []) ∧ 0 ≤ toI32 (dir.length / metaLen : ℕ) ∧
        toI32 (dir.length / metaLen : ℕ) ≤ maxNumFiles) ∧
    ∀ s, initFs file dir hash = .ok s →
      (s.file = file ∧ s.dir = dir ∧ s.hash = hash) ∧
      (s.indexLen : ℤ) = toI32 (dir.length / metaLen : ℕ) ∧
      (contents s).Perm (imageFiles s.indexLen file dir) ∧
      (WellFormed s ↔ DirectoryValid s.indexLen dir file.length) := by
  refine ⟨initFs_accepts_iff, fun s hr => ?_⟩
  obtain ⟨-, hfile, hdir, hhash, -⟩ := initFs_scanned hr
  exact ⟨⟨hfile, hdir, hhash⟩, initFs_indexLen32 hr, initFs_contents hr, initFs_wellFormed_iff hr⟩

end Images

set_option maxRecDepth 20000 in
/-- Two entries of one name are two files, and no well-formed state. -/
theorem initFs_exact_twin : ∃ s, initFs (zeros 256) twinDir (zeros 16) = .ok s ∧
    (contents s).Perm [⟨[97], [0]⟩, ⟨[97], [0]⟩] ∧ ¬ WellFormed s := by
  obtain ⟨haccepts, hmounted⟩ := initFs_exact (zeros 256) twinDir (zeros 16)
  obtain ⟨s, hr⟩ := haccepts.mpr (by decide +kernel)
  obtain ⟨-, hlen, hperm, hw⟩ := hmounted s hr
  obtain hlen : s.indexLen = 2 := Int.ofNat.inj (hlen.trans (by decide +kernel))
  have himage : imageFiles 2 (zeros 256) twinDir = [⟨[97], [0]⟩, ⟨[97], [0]⟩] := by
    decide +kernel
  rw [hlen] at hperm hw
  rw [himage] at hperm
  refine ⟨s, hr, hperm, fun h => ?_⟩
  exact absurd ((hw.mp h).names 0 (by decide) 1 (by decide) (by decide +kernel)
    (by decide +kernel) (by decide +kernel)) (by decide)

end Vfs
